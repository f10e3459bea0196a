/-
At most one copy of each block.

The lookup of `cache_acquire` does not see a fresh buffer before it is on the
list, and a fresh buffer is put there only once its sleep lock is taken.

* `ThreadState.Unique`, `one_copy` — when no two clients allocate a buffer for one
  block, there is at most one copy of it in memory;
* `two_copies` — a run with two holders of one block in different buffers.
-/
import OsLab.Fs.CacheThreads

namespace OsLab

/-- A lookup that misses block `n` misses no buffer for `n` that another client
has yet to insert, and flags are cleared by the last user. -/
def SeesFresh (s : ThreadState) : ThreadStep → Prop
  | .acquire _ n => s.cache.findBlock n = none →
      ∀ q < s.clients, ∀ e ∈ (s.pc q).inserts, e.2 ≠ n
  | l => LastUser s l

instance (s : ThreadState) (l : ThreadStep) : Decidable (SeesFresh s l) :=
  match l with
  | .acquire _ n => inferInstanceAs (Decidable (s.cache.findBlock n = none →
      ∀ q < s.clients, ∀ e ∈ (s.pc q).inserts, e.2 ≠ n))
  | .release p => inferInstanceAs (Decidable (LastUser s (.release p)))
  | .wait _ => isTrue trivial
  | .wake _ => isTrue trivial
  | .fill _ => isTrue trivial
  | .modify _ _ => isTrue trivial
  | .sync _ _ => isTrue trivial
  | .post _ => isTrue trivial

theorem SeesFresh.lastUser {s : ThreadState} {l : ThreadStep} (h : SeesFresh s l) :
    LastUser s l := by
  cases l with
  | acquire p n => trivial
  | _ => exact h

namespace ThreadState

variable {sb : SuperBlock} {s t : ThreadState} {p q r a b m n : ℕ} {c : Pc} {cache : Bcache}

/-! ### One copy -/

/-- A buffer that counts as a copy: it holds data or a client works on it. -/
def Claimed (s : ThreadState) (a : ℕ) : Prop :=
  (s.cache.heap a).valid = true ∨ ∃ q, (s.pc q).buffer = some a

/-- The lookup finds the copies on the list, and there is no other copy of a
block that is about to be inserted. -/
structure Unique (s : ThreadState) : Prop where
  found : ∀ a ∈ s.cache.head, s.Claimed a →
    s.cache.findBlock (s.cache.heap a).blockNo = some a
  alone : ∀ q a n, (s.pc q).inserts = some (a, n) → s.cache.findBlock n = none ∧
    ∀ r b, (s.pc r).inserts = some (b, n) → r = q

theorem Unique.eq_of_blockNo (hs : s.Unique) (ha : a ∈ s.cache.head) (hca : s.Claimed a)
    (hb : b ∈ s.cache.head) (hcb : s.Claimed b)
    (h : (s.cache.heap a).blockNo = (s.cache.heap b).blockNo) : a = b :=
  Option.some.inj ((hs.found a ha hca).symm.trans (h ▸ hs.found b hb hcb))

theorem unique_init (h : (threadSystem sb).init s) : s.Unique := by
  obtain ⟨D, hD, hrun, hidle, -⟩ := h
  obtain ⟨cache, hrun', hb⟩ := Bcache.initBcache_spec hD
  obtain rfl := Except.ok.inj (hrun.symm.trans hrun')
  refine ⟨fun a ha hclaim => ?_, fun q a n hins => ?_⟩
  · rcases hclaim with hvalid | ⟨q, hq⟩
    · exact hb.wf.findBlock _ a ⟨ha, hvalid, rfl⟩
    · rw [hidle q] at hq
      cases hq
  · rw [hidle q] at hins
    cases hins

theorem Unique.of_stays (hs : s.Unique) (h : s.Stays t) : t.Unique := by
  have hfind : ∀ m, t.cache.findBlock m = s.cache.findBlock m := by
    intro m
    rw [Bcache.findBlock, h.head]
    exact findKey_congr fun b _ => h.blockNo b
  refine ⟨fun a ha hclaim => ?_, fun q a n hins => ?_⟩
  · rw [hfind, h.blockNo]
    refine hs.found a (h.head ▸ ha) ?_
    rcases hclaim with hvalid | ⟨q, hq⟩
    · exact h.valid a hvalid
    · exact .inr ⟨q, h.buffer q ▸ hq⟩
  · obtain ⟨hnone, honly⟩ := hs.alone q a n (h.inserts q ▸ hins)
    exact ⟨(hfind n).trans hnone, fun r b hr => honly r b (h.inserts r ▸ hr)⟩

/-- The lookup of `n` in a list with the same members and numbers other than `n`. -/
private theorem findBlock_none {t : Bcache}
    (h : ∀ b ∈ t.head, (t.heap b).blockNo ≠ n) : t.findBlock n = none := findKey_eq_none.mpr h

private theorem ne_of_findBlock_none {s : Bcache} (h : s.findBlock n = none) :
    ∀ b ∈ s.head, (s.heap b).blockNo ≠ n := findKey_eq_none.mp h

/-- Client `p` enters with a buffer of the list. -/
theorem inserts_enter (hp : s.pc p = .idle) {path : Bcache.Path} (hpath : path ≠ .fresh)
    (q : ℕ) : ((s.goto p (.entered path a n) cache).pc q).inserts = (s.pc q).inserts := by
  by_cases hqp : q = p
  · rw [hqp, hp, pc_goto_self]
    cases path with
    | fresh => exact absurd rfl hpath
    | hit => rfl
    | reuse => rfl
  · rw [pc_goto_ne hqp]

/-- What it works on is new; the others work on what they did. -/
private theorem claimed_enter {path : Bcache.Path} (hba : b ≠ a)
    (hvalid : (cache.heap b).valid = (s.cache.heap b).valid)
    (h : (s.goto p (.entered path a n) cache).Claimed b) : s.Claimed b := by
  rcases h with h | ⟨q, hq⟩
  · exact .inl (hvalid ▸ h)
  · by_cases hqp : q = p
    · rw [hqp, pc_goto_self] at hq
      exact absurd (Option.some.inj hq).symm hba
    · rw [pc_goto_ne hqp] at hq
      exact .inr ⟨q, hq⟩

private theorem unique_hit (hs : s.Unique) (hp : s.pc p = .idle)
    (hfind : s.cache.findBlock n = some a) :
    (s.goto p (.entered .hit a n)
      (s.cache.setBlock a fun b => { b with acquired := true })).Unique := by
  set t := s.goto p (.entered .hit a n)
    (s.cache.setBlock a fun b => { b with acquired := true }) with ht
  have hkey : ∀ b, (t.cache.heap b).blockNo = (s.cache.heap b).blockNo ∧
      (t.cache.heap b).valid = (s.cache.heap b).valid := by
    intro b
    by_cases hba : b = a
    · subst hba
      exact ⟨by simp [ht], by simp [ht]⟩
    · simp [ht, Bcache.heap_setBlock_ne hba]
  have hsame : ∀ m, t.cache.findBlock m = s.cache.findBlock m := fun m =>
    findKey_congr fun b _ => (hkey b).1
  refine ⟨fun b hb hclaim => ?_, fun q b m hq => ?_⟩
  · rw [hsame, (hkey b).1]
    by_cases hba : b = a
    · rw [hba, Bcache.blockNo_of_findBlock hfind, hfind]
    · exact hs.found b hb (claimed_enter hba (hkey b).2 hclaim)
  · have hins : ∀ q, (t.pc q).inserts = (s.pc q).inserts := inserts_enter hp (by decide)
    obtain ⟨hnone, honly⟩ := hs.alone q b m (hins q ▸ hq)
    exact ⟨(hsame m).trans hnone, fun r c hr => honly r c (hins r ▸ hr)⟩

private theorem unique_reuse (hs : s.Unique) (hp : s.pc p = .idle)
    (hfind : s.cache.findBlock n = none) (ha : a ∈ s.cache.head)
    (hmiss : ∀ q b m, (s.pc q).inserts = some (b, m) → m ≠ n) :
    (s.goto p (.entered .reuse a n) (s.cache.setBlock a fun b =>
      { b with blockNo := n, acquired := true, valid := false })).Unique := by
  set t := s.goto p (.entered .reuse a n) (s.cache.setBlock a fun b =>
    { b with blockNo := n, acquired := true, valid := false }) with ht
  have hself : (t.cache.heap a).blockNo = n := by simp [ht]
  have hne : ∀ b, b ≠ a → t.cache.heap b = s.cache.heap b := fun b hba => by
    simp [ht, Bcache.heap_setBlock_ne hba]
  have hkeys : ∀ m, t.cache.findBlock m
      = findKey (Function.update (fun b => (s.cache.heap b).blockNo) a n) m s.cache.head := by
    refine fun m => findKey_congr fun b _ => ?_
    by_cases hba : b = a
    · rw [hba, Function.update_self, hself]
    · rw [Function.update_of_ne hba, hne b hba]
  refine ⟨fun b hb hclaim => ?_, fun q b m hq => ?_⟩
  · by_cases hba : b = a
    · rw [hba, hself, hkeys]
      exact findKey_update_self hfind ha
    · have hold : s.Claimed b := claimed_enter hba (congrArg Block.valid (hne b hba)) hclaim
      rw [hne b hba, hkeys]
      refine findKey_update (hs.found b hb hold) hba ?_
      exact fun h => ne_of_findBlock_none hfind b hb h.symm
  · have hins : ∀ q, (t.pc q).inserts = (s.pc q).inserts := inserts_enter hp (by decide)
    rw [hins q] at hq
    obtain ⟨hnone, honly⟩ := hs.alone q b m hq
    refine ⟨findBlock_none fun c hc => ?_, fun r d hr => honly r d (hins r ▸ hr)⟩
    by_cases hca : c = a
    · rw [hca, hself]
      exact (hmiss q b m hq).symm
    · rw [hne c hca]
      exact ne_of_findBlock_none hnone c hc

private theorem unique_fresh (hs : s.Unique) (hi : s.Inv) (hfind : s.cache.findBlock n = none)
    (hmiss : ∀ q b m, (s.pc q).inserts = some (b, m) → m ≠ n) {B : Block} :
    (s.goto p (.entered .fresh s.cache.brk n) { s.cache with
      brk := s.cache.brk + 1, heap := Function.update s.cache.heap s.cache.brk B }).Unique := by
  set t := s.goto p (.entered .fresh s.cache.brk n) { s.cache with
    brk := s.cache.brk + 1, heap := Function.update s.cache.heap s.cache.brk B } with ht
  have hbrk : ∀ b ∈ s.cache.head, b ≠ s.cache.brk := by
    rintro b hb rfl
    exact Nat.lt_irrefl _ (hi.lt_brk _ hb)
  have hne : ∀ b ∈ s.cache.head, t.cache.heap b = s.cache.heap b := fun b hb =>
    Function.update_of_ne (hbrk b hb) _ _
  have hsame : ∀ m, t.cache.findBlock m = s.cache.findBlock m := fun m =>
    findKey_congr fun b hb => by rw [hne b hb]
  have hcase : ∀ q b m, (t.pc q).inserts = some (b, m) →
      q = p ∧ m = n ∨ (s.pc q).inserts = some (b, m) := by
    intro q b m hq
    by_cases hqp : q = p
    · rw [hqp, ht, pc_goto_self] at hq
      exact .inl ⟨hqp, (Prod.mk.inj (Option.some.inj hq)).2.symm⟩
    · exact .inr (by rwa [ht, pc_goto_ne hqp] at hq)
  refine ⟨fun b hb hclaim => ?_, fun q b m hq => ?_⟩
  · rw [hsame, hne b hb]
    exact hs.found b hb (claimed_enter (hbrk b hb) (congrArg Block.valid (hne b hb)) hclaim)
  · rw [hsame]
    rcases hcase q b m hq with ⟨rfl, rfl⟩ | hold
    · refine ⟨hfind, fun r d hr => ?_⟩
      rcases hcase r d m hr with ⟨hrq, -⟩ | hr
      · exact hrq
      · exact absurd rfl (hmiss r d m hr)
    · obtain ⟨hnone, honly⟩ := hs.alone q b m hold
      refine ⟨hnone, fun r d hr => ?_⟩
      rcases hcase r d m hr with ⟨-, hmn⟩ | hr
      · exact absurd hmn (hmiss q b m hold)
      · exact honly r d hr

theorem unique_acquire (hs : s.Unique) (hi : s.Inv) (hl : SeesFresh s (.acquire p n))
    (h : s.step (.acquire p n) = some t) : t.Unique := by
  obtain ⟨-, hp, rfl⟩ := step_acquire h
  -- no client is about to insert a buffer for a block that the lookup misses
  have hmiss : s.cache.findBlock n = none → ∀ q b m, (s.pc q).inserts = some (b, m) → m ≠ n := by
    intro hnone q b m hq
    by_cases hlt : q < s.clients
    · exact hl hnone q hlt (b, m) hq
    · have hbuf := hi.idle q (Nat.le_of_not_lt hlt)
      rw [Pc.buffer_of_uses (Pc.uses_of_inserts hq)] at hbuf
      cases hbuf
  rcases s.cache.acquireSection_cases n with ⟨a, hfind, hsec⟩ | ⟨a, hfind, hvictim, hsec⟩ |
    ⟨hfind, -, hsec⟩
  · rw [hsec]
    exact unique_hit hs hp hfind
  · rw [hsec]
    exact unique_reuse hs hp hfind (Bcache.findVictim_spec hvictim).1 (hmiss hfind)
  · rw [hsec]
    exact unique_fresh hs hi hfind (hmiss hfind)

/-- A fresh buffer is put on the list: the lookup of its number still misses. -/
theorem unique_insert (hs : s.Unique) (hi : s.Inv) (hp : s.pc p = .locked .fresh a n) :
    (s.goto p (.holding a n false) (Bcache.fillSection .fresh a s.cache)).Unique := by
  set t := s.goto p (.holding a n false) (Bcache.fillSection .fresh a s.cache) with ht
  have hhead : t.cache.head = s.cache.head ++ [a] := rfl
  have hheap : t.cache.heap = (s.cache.load a).heap := rfl
  have hins : (s.pc p).inserts = some (a, n) := by rw [hp]; rfl
  obtain ⟨hnone, honly⟩ := hs.alone p a n hins
  have hnoa : (s.cache.heap a).blockNo = n := (hi.uses p a n (Pc.uses_of_inserts hins)).1
  have hno : ∀ b, (t.cache.heap b).blockNo = (s.cache.heap b).blockNo := by
    intro b
    by_cases hba : b = a
    · rw [hba, hheap, Bcache.load_eq, Bcache.heap_setBlock_self]
    · rw [hheap, Bcache.load_eq, Bcache.heap_setBlock_ne hba]
  have hkeys : ∀ m, t.cache.findBlock m
      = findKey (fun b => (s.cache.heap b).blockNo) m (s.cache.head ++ [a]) := fun m =>
    findKey_congr fun b _ => hno b
  refine ⟨fun b hb hclaim => ?_, fun q b m hq => ?_⟩
  · rw [hkeys, hno]
    by_cases hba : b = a
    · rw [hba, hnoa]
      exact findKey_append_self hnone hnoa
    · have hbm : b ∈ s.cache.head := by
        rw [hhead] at hb
        simpa [hba] using hb
      refine findKey_append (hs.found b hbm ?_)
      rcases hclaim with hvalid | ⟨q, hq⟩
      · rw [hheap, Bcache.load_eq, Bcache.heap_setBlock_ne hba] at hvalid
        exact .inl hvalid
      · by_cases hqp : q = p
        · rw [hqp, ht, pc_goto_self] at hq
          exact absurd (Option.some.inj hq).symm hba
        · rw [ht, pc_goto_ne hqp] at hq
          exact .inr ⟨q, hq⟩
  · have hold : ∀ q b, (t.pc q).inserts = some (b, m) → q ≠ p ∧ (s.pc q).inserts = some (b, m) := by
      intro q b hq
      by_cases hqp : q = p
      · rw [hqp, ht, pc_goto_self] at hq
        cases hq
      · exact ⟨hqp, by rwa [ht, pc_goto_ne hqp] at hq⟩
    obtain ⟨hqp, hq'⟩ := hold q b hq
    obtain ⟨hnone', honly'⟩ := hs.alone q b m hq'
    refine ⟨findBlock_none fun c hc => ?_, fun r d hr => honly' r d (hold r d hr).2⟩
    rw [hno]
    rcases List.mem_append.mp (hhead ▸ hc) with hc | hc
    · exact ne_of_findBlock_none hnone' c hc
    · rw [List.mem_singleton.mp hc, hnoa]
      rintro rfl
      exact hqp (honly q b hq')

/-- The released buffer is found wherever it was, and the other copies have other
numbers. -/
theorem unique_release (hs : s.Unique) (hi : s.Inv) (h : s.step (.release p) = some t) :
    t.Unique := by
  obtain ⟨a, n, hp, rfl⟩ := step_release h
  have hbuf : (s.pc p).buffer = some a := by rw [hp]; rfl
  have ha : a ∈ s.cache.head := hi.listed p a hbuf (by rw [hp]; rfl)
  have hclaim : s.Claimed a := .inr ⟨p, hbuf⟩
  set t := s.goto p .idle (Bcache.releaseSection a s.cache) with ht
  have hheap : ∀ b, (t.cache.heap b).blockNo = (s.cache.heap b).blockNo ∧
      (t.cache.heap b).valid = (s.cache.heap b).valid := by
    intro b
    rw [ht, goto_cache, Bcache.heap_releaseSection]
    by_cases hba : b = a
    · subst hba
      simp
    · simp [Bcache.heap_setBlock_ne hba]
  have hpc : ∀ q, q ≠ p → t.pc q = s.pc q := fun q hq => pc_goto_ne hq
  have hself : t.pc p = .idle := pc_goto_self
  have hold : ∀ b, t.Claimed b → s.Claimed b := by
    rintro b (hvalid | ⟨q, hq⟩)
    · exact .inl ((hheap b).2 ▸ hvalid)
    · by_cases hqp : q = p
      · rw [hqp, hself] at hq
        cases hq
      · exact .inr ⟨q, hpc q hqp ▸ hq⟩
  have hins : ∀ q e, (t.pc q).inserts = some e → (s.pc q).inserts = some e := by
    intro q e hq
    by_cases hqp : q = p
    · rw [hqp, hself] at hq
      cases hq
    · rwa [hpc q hqp] at hq
  have hkeys : ∀ m, t.cache.findBlock m
      = findKey (fun b => (s.cache.heap b).blockNo) m t.cache.head := fun m =>
    findKey_congr fun b _ => (hheap b).1
  have hsub : ∀ b ∈ t.cache.head, b ∈ s.cache.head := fun b hb =>
    Bcache.mem_of_mem_releaseSection ha hb
  -- the lookup of another copy does not see that `a` moves
  have hlist : ∀ b ∈ t.cache.head, s.Claimed b →
      findKey (fun b => (s.cache.heap b).blockNo) (s.cache.heap b).blockNo t.cache.head
        = some b := by
    intro b hb hc
    have hother : b ≠ a → (s.cache.heap a).blockNo ≠ (s.cache.heap b).blockNo := fun hba hno =>
      hba (hs.eq_of_blockNo ha hclaim (hsub b hb) hc hno).symm
    rcases s.cache.releaseSection_cases a with ⟨-, -, hrel⟩ | hrel
    · have hhead : t.cache.head = s.cache.head.erase a := by rw [ht, goto_cache, hrel]
      rw [hhead] at hb ⊢
      have hba : b ≠ a := ((hi.nodup.mem_erase_iff).mp hb).1
      exact (findKey_erase (b := a) (hother hba)).trans (hs.found b (List.mem_of_mem_erase hb) hc)
    · have hhead : t.cache.head = a :: s.cache.head.erase a := by rw [ht, goto_cache, hrel]
      rw [hhead, findKey_moveToFront]
      by_cases hba : b = a
      · rw [hba, if_pos rfl]
      · rw [if_neg (hother hba)]
        exact hs.found b (hsub b hb) hc
  refine ⟨fun b hb hc => ?_, fun q b m hq => ?_⟩
  · rw [hkeys, (hheap b).1]
    exact hlist b hb (hold b hc)
  · obtain ⟨hnone, honly⟩ := hs.alone q b m (hins q _ hq)
    refine ⟨findBlock_none fun c hc => ?_, fun r d hr => honly r d (hins r _ hr)⟩
    rw [(hheap c).1]
    exact ne_of_findBlock_none hnone c (hsub c hc)

theorem unique_step {l : ThreadStep} (hs : s.Unique) (hi : s.Inv) (hl : SeesFresh s l)
    (h : s.step l = some t) : t.Unique := by
  cases l with
  | acquire p n => exact unique_acquire hs hi hl h
  | release p => exact unique_release hs hi h
  | fill p =>
    obtain ⟨path, a, n, hp, ht⟩ := step_fill h
    cases path with
    | fresh =>
      rw [ht]
      exact unique_insert hs hi hp
    | hit | reuse =>
      refine hs.of_stays (stays_of_step h nofun nofun fun r b m hr hb => ?_)
      obtain rfl := ThreadStep.fill.inj hr
      rw [hp] at hb
      cases hb
  | _ => exact hs.of_stays (stays_of_step h nofun nofun nofun)

theorem unique_of_reachable (h : (threadSystem sb).Reachable SeesFresh s) : s.Unique :=
  h.strong_induction (fun _ => unique_init) fun _ _ _ hr hs hl hstep =>
    unique_step hs (inv_of_reachable (hr.mono fun _ _ => SeesFresh.lastUser)) hl hstep

/-- Buffer `a` is a copy of block `n`: it is in memory and valid for `n`, or a
client has its sleep lock after `cache_acquire` of `n`. -/
def Copy (s : ThreadState) (n a : ℕ) : Prop :=
  (s.InMemory a ∧ (s.cache.heap a).valid = true ∧ (s.cache.heap a).blockNo = n) ∨
    ∃ p, (s.pc p).holds = some (a, n)

/-- A copy is what the lookup finds, or it is about to be inserted. -/
theorem Unique.copy (hs : s.Unique) (hi : s.Inv) (h : s.Copy n a) :
    s.cache.findBlock n = some a ∨ ∃ q, (s.pc q).inserts = some (a, n) := by
  rcases h with ⟨hmem | ⟨q, m, hq⟩, hvalid, rfl⟩ | ⟨p, hp⟩
  · exact .inl (hs.found a hmem (.inl hvalid))
  · rw [(hi.uses q a m (Pc.uses_of_inserts hq)).1]
    exact .inr ⟨q, hq⟩
  · have huse := Pc.uses_of_holds hp
    have hbuf := Pc.buffer_of_uses huse
    cases hins : (s.pc p).inserts with
    | none =>
      rw [← (hi.uses p a n huse).1]
      exact .inl (hs.found a (hi.listed p a hbuf hins) (.inr ⟨p, hbuf⟩))
    | some e => exact .inr ⟨p, hins.trans (by rw [← Pc.uses_of_inserts hins, huse])⟩

end ThreadState

/-- **One copy.**  In every run in which lookups see the fresh buffers and flags
are cleared by the last user, there is at most one copy of each block. -/
theorem one_copy (sb : SuperBlock) (s : ThreadState)
    (hs : (threadSystem sb).Reachable SeesFresh s) :
    ∀ n a b, s.Copy n a → s.Copy n b → a = b := by
  intro n a b ha hb
  have hi := ThreadState.inv_of_reachable (hs.mono fun _ _ => SeesFresh.lastUser)
  have hu := ThreadState.unique_of_reachable hs
  rcases hu.copy hi ha with ha | ⟨q, hq⟩
  · rcases hu.copy hi hb with hb | ⟨r, hr⟩
    · exact Option.some.inj (ha.symm.trans hb)
    · rw [(hu.alone r b n hr).1] at ha
      cases ha
  · obtain ⟨hnone, honly⟩ := hu.alone q a n hq
    rcases hu.copy hi hb with hb | ⟨r, hr⟩
    · rw [hnone] at hb
      cases hb
    · rw [honly r b hr, hq] at hr
      exact (Prod.mk.inj (Option.some.inj hr)).1

/-- Two clients use block 500; the second waits for the buffer of the first. -/
theorem one_copy_mkfs : ∃ s : ThreadState, (threadSystem .mkfs).Reachable SeesFresh s ∧
    s.Copy 500 0 ∧ ∀ a b, s.Copy 500 a → s.Copy 500 b → a = b := by
  have hrun : ((ThreadState.boot .mkfs OpState.blankDisk 2).bind fun s =>
      (threadSystem .mkfs).exec SeesFresh s
        [.acquire 0 500, .wait 0, .fill 0, .acquire 1 500, .wait 1]).map
      (fun s => (s.pc 0).holds) = some (some (0, 500)) := by
    decide
  obtain ⟨s, hs, hp⟩ := ThreadState.exists_reachable_of_exec hrun
  exact ⟨s, hs, .inr ⟨0, hp⟩, one_copy .mkfs s hs 500⟩

/-- With the whole list in use, clients 20 and 21 both allocate a buffer for
block 500, and hold it at the same time. -/
theorem two_copies : ∃ s : ThreadState, (threadSystem .mkfs).Reachable (fun _ _ => True) s ∧
    ∃ n a b, s.Copy n a ∧ s.Copy n b ∧ a ≠ b := by
  have hrun : ((ThreadState.boot .mkfs OpState.blankDisk 22).bind fun s =>
      (threadSystem .mkfs).exec (fun _ _ => True) s
        ((List.range 20).map (fun i => .acquire i (600 + i)) ++
          [.acquire 20 500, .acquire 21 500, .wait 20, .wait 21, .fill 20, .fill 21])).map
      (fun s => ((s.pc 20).holds, (s.pc 21).holds)) = some (some (20, 500), some (21, 500)) := by
    decide
  obtain ⟨s, hs, hf⟩ := ThreadState.exists_reachable_of_exec hrun
  obtain ⟨hp, hq⟩ := Prod.mk.inj hf
  exact ⟨s, hs, 500, 20, 21, .inr ⟨20, hp⟩, .inr ⟨21, hq⟩, by decide⟩

end OsLab
