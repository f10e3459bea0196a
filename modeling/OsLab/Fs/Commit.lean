/-
The device writes of `commit` and `recover_from_log` (`fs/cache.c`).

Both run over the cache: every block they copy is acquired, and a block that is
written to the log is read back through its cached copy.  `logFormat` is the
layout of the log as a `RedoLog`, and the two loops of `commit` turn out to write
exactly what the abstract protocol says:

* `wp_commit` — `commit` returns, and its writes are `RedoLog.commit` of the
  logged blocks with their cached contents;
* `wp_recoverFromLog` — so does `recover_from_log`, with `RedoLog.replay` of the
  disk it started on.
-/
import OsLab.Lib.RedoLog
import OsLab.Fs.CacheView
import Mathlib.Data.List.Nodup

namespace OsLab
namespace Bcache

variable {s t u : Bcache} {a b c m n p q : ℕ}

/-! ### Sequences of calls without and with device writes -/

/-- From `s` to `t` nothing is written, pinned or unpinned, and no content
changes. -/
structure Quiet (s t : Bcache) : Prop where
  wf : t.Wf
  header : t.header = s.header
  log : t.log = s.log
  device : t.device = s.device
  trace : t.trace = s.trace
  pinned_iff : ∀ m, t.Pinned m ↔ s.Pinned m
  clean : ∀ m, s.Clean m → t.Clean m
  view_eq : ∀ m, s.Clean m → t.view m = s.view m

theorem Quiet.trans (h : s.Quiet t) (h' : t.Quiet u) : s.Quiet u where
  wf := h'.wf
  header := h'.header.trans h.header
  log := h'.log.trans h.log
  device := h'.device.trans h.device
  trace := h'.trace.trans h.trace
  pinned_iff m := (h'.pinned_iff m).trans (h.pinned_iff m)
  clean m hm := h'.clean m (h.clean m hm)
  view_eq m hm := (h'.view_eq m (h.clean m hm)).trans (h.view_eq m hm)

theorem Acquires.quiet (h : s.Acquires n a t) (hs : s.Wf) : s.Quiet t where
  wf := h.wf
  header := h.header
  log := h.log
  device := h.device
  trace := h.trace
  pinned_iff _ := h.pinned_iff
  clean _ := h.clean
  view_eq _ hm := h.view_eq hs (.inr hm)

theorem Releases.quiet (h : s.Releases n a t) (hs : s.Wf)
    (hn : s.Pinned n ∨ (s.heap a).data = s.device n) : s.Quiet t where
  wf := h.wf
  header := h.header
  log := h.log
  device := h.device
  trace := h.trace
  pinned_iff _ := h.pinned_iff
  clean _ hm := h.clean hs (fun _ => hm) fun _ => hn
  view_eq _ _ := h.view_eq hs fun _ => hn

/-- From `s` to `t` the cache writes `ws` to the device, and unpins the blocks
in `U`; the views follow the device. -/
structure Wrote (s : Bcache) (ws : List (ℕ × BlockData)) (U : ℕ → Prop) (t : Bcache) : Prop where
  wf : t.Wf
  log : t.log = s.log
  device : t.device = writeAll s.device ws
  trace : t.trace = s.trace ++ ws
  held_iff : ∀ m b, t.Held m b ↔ s.Held m b
  heap_of_held : ∀ m b, s.Held m b → t.heap b = s.heap b
  pinned_iff : ∀ m, t.Pinned m ↔ s.Pinned m ∧ ¬ U m
  clean : ∀ m, s.Clean m → t.Clean m
  view_eq : ∀ m, s.Clean m → t.view m = writeAll s.view ws m

theorem Wrote.refl (hs : s.Wf) : s.Wrote [] (fun _ => False) s where
  wf := hs
  log := rfl
  device := rfl
  trace := (List.append_nil _).symm
  held_iff _ _ := Iff.rfl
  heap_of_held _ _ _ := rfl
  pinned_iff _ := by simp
  clean _ := id
  view_eq _ _ := rfl

theorem Wrote.trans {ws vs : List (ℕ × BlockData)} {U V W : ℕ → Prop} (h : s.Wrote ws U t)
    (h' : t.Wrote vs V u) (hW : ∀ m, W m ↔ U m ∨ V m) :
    s.Wrote (ws ++ vs) W u where
  wf := h'.wf
  log := h'.log.trans h.log
  device := by rw [h'.device, h.device, writeAll_append]
  trace := by rw [h'.trace, h.trace, List.append_assoc]
  held_iff m b := (h'.held_iff m b).trans (h.held_iff m b)
  heap_of_held m b hb :=
    (h'.heap_of_held m b ((h.held_iff m b).mpr hb)).trans (h.heap_of_held m b hb)
  pinned_iff m := by
    rw [h'.pinned_iff, h.pinned_iff, hW]
    tauto
  clean m hm := h'.clean m (h.clean m hm)
  view_eq m hm := by
    rw [h'.view_eq m (h.clean m hm), writeAll_append]
    exact writeAll_congr (.inr (h.view_eq m hm))

/-! ### Copying one block -/

/-- From `s` to `t` the buffers `a` of block `p` and `b` of block `q` have been
acquired. -/
structure Both (s : Bcache) (p a q b : ℕ) (t : Bcache) : Prop where
  quiet : s.Quiet t
  ne : a ≠ b
  idle : ∀ m c, s.Held m c → c ≠ a ∧ c ≠ b
  heap : ∀ c, c ≠ a → c ≠ b → t.heap c = s.heap c
  held_iff : ∀ m c, t.Held m c ↔ s.Held m c ∨ (m = p ∧ c = a) ∨ (m = q ∧ c = b)
  live : ∀ m c, t.Live m c → m = p ∨ m = q ∨ ∃ d, s.Live m d

theorem Both.symm (h : s.Both p a q b t) : s.Both q b p a t where
  quiet := h.quiet
  ne := h.ne.symm
  idle m c hc := (h.idle m c hc).symm
  heap c hb ha := h.heap c ha hb
  held_iff m c := by
    rw [h.held_iff]
    tauto
  live m c hc := by
    have := h.live m c hc
    tauto

/-- `cache_acquire(p)` and `cache_acquire(q)`. -/
theorem Acquires.both (h : s.Acquires p a t) (hs : s.Wf) (h' : t.Acquires q b u) :
    s.Both p a q b u where
  quiet := (h.quiet hs).trans (h'.quiet h.wf)
  ne := h'.ne_of_held h.held
  idle m c hc := ⟨h.ne_of_held hc, h'.ne_of_held (h.held_iff.mpr (.inl hc))⟩
  heap c hca hcb := (h'.heap c hcb).trans (h.heap c hca)
  held_iff m c := by
    rw [h'.held_iff, h.held_iff]
    tauto
  live m c hc := by
    rcases h'.back m c hc with hc' | ⟨rfl, -⟩
    · rcases h.back m c hc' with hc'' | ⟨rfl, -⟩
      · exact .inr (.inr ⟨c, hc''⟩)
      · exact .inl rfl
    · exact .inr (.inl rfl)

/-- From `t` to `u` the data `v` is stored in the buffer `a` of block `p` and
written to the device; the blocks in `U` are unpinned. -/
structure Stores (t : Bcache) (p a : ℕ) (v : BlockData) (U : ℕ → Prop) (u : Bcache) : Prop where
  wf : u.Wf
  header : u.header = t.header
  log : u.log = t.log
  device : u.device = Function.update t.device p v
  trace : u.trace = t.trace ++ [(p, v)]
  heap : ∀ c, c ≠ a → u.heap c = t.heap c
  live_iff : ∀ m c, u.Live m c ↔ t.Live m c
  held_iff : ∀ m c, u.Held m c ↔ t.Held m c
  data : (u.heap a).data = v
  pinned_iff : ∀ m, u.Pinned m ↔ t.Pinned m ∧ ¬ U m

theorem Wf.stores (ht : t.Wf) (ha : t.Held p a) {v : BlockData} {U : ℕ → Prop}
    (hU : ∀ m, U m → m = p) {f : Block → Block}
    (hno : (f (t.heap a)).blockNo = (t.heap a).blockNo)
    (hvalid : (f (t.heap a)).valid = (t.heap a).valid)
    (hacq : (f (t.heap a)).acquired = (t.heap a).acquired)
    (hlock : (f (t.heap a)).lock = (t.heap a).lock) (hdata : (f (t.heap a)).data = v)
    (hpin : (f (t.heap a)).pinned = true ↔ (t.heap a).pinned = true ∧ ¬ U p) :
    t.Stores p a v U ((t.setBlock a f).writeDevice p v) := by
  have hlive : ∀ m c, (t.setBlock a f).Live m c ↔ t.Live m c := fun m c => live_setBlock hno hvalid
  refine
    { wf := ?_, header := rfl, log := rfl, device := rfl, trace := rfl
      heap := fun c hc => heap_setBlock_ne hc, live_iff := hlive
      held_iff := fun m c => held_setBlock hno hvalid hacq
      data := (congrArg Block.data heap_setBlock_self).trans hdata, pinned_iff := fun m => ?_ }
  · have hw := ht.setBlock (f := f) hno hvalid hacq hlock fun _ => ha.1.2.1
    exact ⟨hw.nodup, hw.lt_brk, hw.findBlock, hw.valid, hw.lock, hw.freed⟩
  · constructor
    · rintro ⟨c, hc, hp⟩
      have hc' := (hlive m c).mp hc
      by_cases hca : c = a
      · subst hca
        obtain rfl := hc'.number ha.1
        have hp' : ((t.setBlock c f).heap c).pinned = true := hp
        rw [heap_setBlock_self] at hp'
        exact ⟨⟨c, hc', (hpin.mp hp').1⟩, (hpin.mp hp').2⟩
      · have hp' : (t.heap c).pinned = true := by
          rw [← heap_setBlock_ne hca]
          exact hp
        refine ⟨⟨c, hc', hp'⟩, fun hm => hca ?_⟩
        rw [hU m hm] at hc'
        exact ht.unique hc' ha.1
    · rintro ⟨⟨c, hc, hp⟩, hm⟩
      refine ⟨c, (hlive m c).mpr hc, ?_⟩
      show ((t.setBlock a f).heap c).pinned = true
      by_cases hca : c = a
      · subst hca
        obtain rfl := hc.number ha.1
        rw [heap_setBlock_self]
        exact hpin.mpr ⟨hp, hm⟩
      · rw [heap_setBlock_ne hca]
        exact hp

theorem Stores.view_eq {v : BlockData} {U : ℕ → Prop} (h : t.Stores p a v U u) (ht : t.Wf)
    (ha : t.Live p a) (m : ℕ) : u.view m = Function.update t.view p v m := by
  by_cases hm : m = p
  · subst hm
    rw [Function.update_self, h.wf.view_of_live ((h.live_iff m a).mpr ha), h.data]
  · rw [Function.update_of_ne hm]
    refine ht.view_eq h.wf ?_ (fun c hc => (h.live_iff m c).mp hc) fun c hc => .inl ?_
    · rw [h.device, Function.update_of_ne hm]
    · have hca : c ≠ a := by
        rintro rfl
        exact hm (hc.number ha)
      exact ⟨(h.live_iff m c).mpr hc, by rw [h.heap c hca]⟩

theorem Stores.clean {v : BlockData} {U : ℕ → Prop} (h : t.Stores p a v U u) (ht : t.Wf)
    (ha : t.Live p a) (hU : ∀ m, U m → m = p) (hm : m = p ∨ t.Clean m) : u.Clean m := by
  intro c hc hacq hpin
  have hc' := (h.live_iff m c).mp hc
  by_cases hmp : m = p
  · subst hmp
    rw [ht.unique hc' ha, h.data, h.device, Function.update_self]
  · have hca : c ≠ a := by
      rintro rfl
      exact hmp (hc'.number ha)
    rw [h.heap c hca] at hacq hpin ⊢
    rw [h.device, Function.update_of_ne hmp]
    exact hm.resolve_left hmp c hc' hacq hpin

/-- One copy: the content of block `q` is stored in block `p` and written. -/
structure CopiesBlock (s : Bcache) (p q : ℕ) (U : ℕ → Prop) (t : Bcache) : Prop where
  wrote : s.Wrote [(p, s.view q)] U t
  idle : ∀ c, ¬ s.Held q c
  header : t.header = s.header
  live : ∀ m c, t.Live m c → m = p ∨ m = q ∨ ∃ d, s.Live m d

/-- A pinned copy is never evicted, so it need not agree with the device. -/
theorem Wf.clean_of_pinned (hs : s.Wf) (hp : s.Pinned n) : s.Clean n := by
  intro a ha _ hpin
  rw [hs.pinned_of_live ha hp] at hpin
  cases hpin

/-- The content of an idle clean block is on the device, unless it is pinned. -/
theorem Wf.pinned_or_view_eq (hs : s.Wf) (hidle : ∀ c, ¬ s.Held q c) (hclean : s.Clean q) :
    s.Pinned q ∨ s.view q = s.device q := by
  by_cases hlive : ∃ c, s.Live q c
  · obtain ⟨c, hc⟩ := hlive
    by_cases hp : s.Pinned q
    · exact .inl hp
    · refine .inr ?_
      rw [hs.view_of_live hc]
      refine hclean c hc ?_ ?_
      · by_contra hacq
        exact hidle c ⟨hc, by simpa using hacq⟩
      · by_contra hpin
        exact hp ⟨c, hc, by simpa using hpin⟩
  · exact .inr (view_of_not_live fun c hc => hlive ⟨c, hc⟩)

/-- The end of a copy from block `q` to block `p`: the content of `q` is stored
and written at `p`, and both buffers are released. -/
theorem Both.wp_release (h : s.Both p a q b t) (hs : s.Wf) (hpq : p ≠ q)
    (hidle : ∀ c, ¬ s.Held q c) (hclean : s.Clean q) {U : ℕ → Prop} (hU : ∀ m, U m → m = p)
    (hstore : t.Stores p a (t.heap b).data U u) {E : Fault → Prop} :
    wp (do cacheRelease b; cacheRelease a)
      (fun _ w => s.CopiesBlock p q U w) E u := by
  have hpa : t.Held p a := (h.held_iff p a).mpr (.inr (.inl ⟨rfl, rfl⟩))
  have hqb : t.Held q b := (h.held_iff q b).mpr (.inr (.inr ⟨rfl, rfl⟩))
  have hv : (t.heap b).data = s.view q := by
    rw [← h.quiet.wf.view_of_live hqb.1, h.quiet.view_eq q hclean]
  rw [hv] at hstore
  have hub : (u.heap b).data = s.view q := by rw [hstore.heap b h.ne.symm, hv]
  have hq : u.Pinned q ∨ (u.heap b).data = u.device q := by
    rcases hs.pinned_or_view_eq hidle hclean with hp | hdev
    · exact .inl ((hstore.pinned_iff q).mpr
        ⟨(h.quiet.pinned_iff q).mpr hp, fun hUq => hpq (hU q hUq).symm⟩)
    · refine .inr ?_
      rw [hub, hdev, hstore.device, Function.update_of_ne hpq.symm, h.quiet.device]
  rw [wp_bind]
  refine wp_mono (wp_cacheRelease hstore.wf ((hstore.held_iff q b).mpr hqb)) (fun _ w hw => ?_)
    fun _ he => he
  have hwa : w.Held p a :=
    (hw.held_iff hstore.wf).mpr ⟨(hstore.held_iff p a).mpr hpa, h.ne⟩
  have hp : (w.heap a).data = w.device p := by
    rw [hw.heap a h.ne, hstore.data, hw.device, hstore.device, Function.update_self]
  have hquiet := hw.quiet hstore.wf hq
  refine wp_mono (wp_cacheRelease hw.wf hwa) (fun _ x hx => ?_) fun _ he => he
  have hend := hquiet.trans (hx.quiet hw.wf (.inr hp))
  refine ⟨⟨hend.wf, ?_, ?_, ?_, fun m c => ?_, fun m c hc => ?_, fun m => ?_, fun m hm => ?_,
    fun m hm => ?_⟩, hidle, ?_, fun m c hc => ?_⟩
  · rw [hend.log, hstore.log, h.quiet.log]
  · rw [hend.device, hstore.device, h.quiet.device]
    rfl
  · rw [hend.trace, hstore.trace, h.quiet.trace]
  · rw [hx.held_iff hw.wf, hw.held_iff hstore.wf, hstore.held_iff, h.held_iff]
    constructor
    · rintro ⟨⟨hc | ⟨-, rfl⟩ | ⟨-, rfl⟩, hcb⟩, hca⟩
      · exact hc
      · exact absurd rfl hca
      · exact absurd rfl hcb
    · intro hc
      obtain ⟨hca, hcb⟩ := h.idle m c hc
      exact ⟨⟨.inl hc, hcb⟩, hca⟩
  · obtain ⟨hca, hcb⟩ := h.idle m c hc
    rw [hx.heap c hca, hw.heap c hcb, hstore.heap c hca, h.heap c hca hcb]
  · rw [hend.pinned_iff, hstore.pinned_iff, h.quiet.pinned_iff]
  · exact hend.clean m (hstore.clean h.quiet.wf hpa.1 hU (.inr (h.quiet.clean m hm)))
  · have hum := hstore.clean h.quiet.wf hpa.1 hU (.inr (h.quiet.clean m hm))
    rw [hend.view_eq m hum, hstore.view_eq h.quiet.wf hpa.1 m]
    show writeAll t.view [(p, s.view q)] m = writeAll s.view [(p, s.view q)] m
    exact writeAll_congr (.inr (h.quiet.view_eq m hm))
  · rw [hend.header, hstore.header, h.quiet.header]
  · exact h.live m c ((hstore.live_iff m c).mp (hw.back m c (hx.back m c hc)))

end Bcache

/-! ### The layout of the log -/

theorem LogHeader.logged_ofBlock_clear (h : LogHeader) :
    (LogHeader.ofBlock ({ h with numBlocks := 0 } : LogHeader).toBlock).logged = [] := by
  have hround := LogHeader.logged_ofBlock_toBlock (h := { h with numBlocks := 0 })
    (Nat.zero_le _) (by simp)
  rw [hround.2, LogHeader.logged_clear]

/-- The log area of a super block: the header in `log_start` and the copies
behind it, as many as fit in the area and in the header. -/
def logFormat (sb : SuperBlock) : RedoLog ℕ BlockData where
  head := sb.logStart
  slot := sb.logBlock
  cap := min (sb.numLogBlocks - 1) logMaxSize
  targets d := (LogHeader.ofBlock d).logged
  clear d := ({ LogHeader.ofBlock d with numBlocks := 0 } : LogHeader).toBlock
  slot_ne_head i _ := by
    rw [SuperBlock.logBlock]
    omega
  slot_inj i _ j _ h := by
    simp only [SuperBlock.logBlock] at h
    omega
  targets_clear d := LogHeader.logged_ofBlock_clear _

theorem SuperBlock.inLog_logStart {sb : SuperBlock} (hlog : 0 < sb.numLogBlocks) :
    sb.InLog sb.logStart := ⟨Nat.le_refl _, by omega⟩

theorem SuperBlock.inLog_logBlock {sb : SuperBlock} {i : ℕ} (hi : i < sb.numLogBlocks - 1) :
    sb.InLog (sb.logBlock i) := by
  simp only [SuperBlock.InLog, SuperBlock.logBlock]
  omega

/-- A block outside the log area is no block of the log. -/
theorem outside_of_not_inLog {sb : SuperBlock} (hlog : 0 < sb.numLogBlocks) {n : ℕ}
    (hn : ¬ sb.InLog n) : (logFormat sb).Outside n := by
  refine ⟨?_, fun i hi => ?_⟩
  · rintro rfl
    exact hn (SuperBlock.inLog_logStart hlog)
  · rintro rfl
    exact hn (SuperBlock.inLog_logBlock (Nat.lt_of_lt_of_le hi (min_le_left _ _)))

namespace Bcache

variable {sb : SuperBlock} {s t u : Bcache} {a b c m n p q tail : ℕ}

/-- `header.block_no[tail]` inside the array. -/
theorem wp_headerBlockNo {Q : ℕ → Bcache → Prop} {E : Fault → Prop} (htail : tail < logMaxSize)
    (hQ : Q (s.header.entry tail) s) : wp (headerBlockNo tail) Q E s := by
  simpa only [headerBlockNo, if_pos htail, wp_bind, wp_get, wp_pure] using hQ

/-- The first loop of `commit` copies a logged block to the log. -/
theorem wp_commitToLog (hs : s.Wf) (htail : tail < logMaxSize)
    (hne : sb.logBlock tail ≠ s.header.entry tail)
    {E : Fault → Prop} (hp : ∀ c, s.Held (sb.logBlock tail) c → E .blocked)
    (hq : ∀ c, s.Held (s.header.entry tail) c → E .blocked)
    (hclean : s.Clean (s.header.entry tail)) :
    wp (commitToLog sb tail)
      (fun _ t => s.CopiesBlock (sb.logBlock tail) (s.header.entry tail) (fun _ => False) t)
      E s := by
  rw [commitToLog, wp_bind]
  refine wp_mono (wp_cacheAcquire hs hp) (fun a t ht => ?_) fun _ he => he
  rw [wp_bind]
  refine wp_headerBlockNo htail ?_
  rw [ht.header, wp_bind]
  have hq' : ∀ c, t.Held (s.header.entry tail) c → E .blocked := by
    intro c hc
    rcases ht.held_iff.mp hc with hc | ⟨heq, -⟩
    · exact hq c hc
    · exact absurd heq.symm hne
  refine wp_mono (wp_cacheAcquire ht.wf hq') (fun b u hu => ?_) fun _ he => he
  have hboth := ht.both hs hu
  have hidle : ∀ c, ¬ s.Held (s.header.entry tail) c := fun c hc =>
    hu.not_held (ht.held_iff.mpr (.inl hc))
  have hstore : u.Stores (sb.logBlock tail) a (u.heap b).data (fun _ => False)
      ((u.setBlock a fun c => { c with data := (u.heap b).data }).deviceWrite a) := by
    have hpa : u.Held (sb.logBlock tail) a := (hboth.held_iff _ a).mpr (.inr (.inl ⟨rfl, rfl⟩))
    have hst := hboth.quiet.wf.stores hpa (v := (u.heap b).data) (U := fun _ => False)
      (fun _ h => h.elim) (f := fun c => { c with data := (u.heap b).data }) rfl rfl rfl rfl rfl
      (by simp)
    simpa [deviceWrite, hpa.1.2.2] using hst
  rw [wp_bind, copyAndWrite, wp_modify]
  exact hboth.wp_release hs hne hidle hclean (fun _ h => h.elim) hstore

/-- The second loop copies it home and unpins it. -/
theorem wp_commitToHome (hs : s.Wf) (htail : tail < logMaxSize)
    (hne : s.header.entry tail ≠ sb.logBlock tail)
    {E : Fault → Prop} (hp : ∀ c, s.Held (s.header.entry tail) c → E .blocked)
    (hq : ∀ c, s.Held (sb.logBlock tail) c → E .blocked) (hclean : s.Clean (sb.logBlock tail)) :
    wp (commitToHome sb tail)
      (fun _ t => s.CopiesBlock (s.header.entry tail) (sb.logBlock tail)
        (· = s.header.entry tail) t)
      E s := by
  rw [commitToHome, wp_bind]
  refine wp_mono (wp_cacheAcquire hs hq) (fun a t ht => ?_) fun _ he => he
  rw [wp_bind]
  refine wp_headerBlockNo htail ?_
  rw [ht.header, wp_bind]
  have hp' : ∀ c, t.Held (s.header.entry tail) c → E .blocked := by
    intro c hc
    rcases ht.held_iff.mp hc with hc | ⟨heq, -⟩
    · exact hp c hc
    · exact absurd heq hne
  refine wp_mono (wp_cacheAcquire ht.wf hp') (fun b u hu => ?_) fun _ he => he
  have hboth := (ht.both hs hu).symm
  have hpb : u.Held (s.header.entry tail) b := (hboth.held_iff _ b).mpr (.inr (.inl ⟨rfl, rfl⟩))
  have hstore := hboth.quiet.wf.stores hpb (v := (u.heap a).data)
    (U := (· = s.header.entry tail)) (fun _ h => h)
    (f := fun c => { c with data := (u.heap a).data, pinned := false }) rfl rfl rfl rfl rfl
    (by simp)
  rw [wp_bind, copyAndWrite, wp_modify, wp_bind, wp_modify]
  refine hboth.wp_release hs hne (fun _ => ht.not_held) hclean (fun _ h => h) ?_
  simpa [deviceWrite, writeDevice, setBlock, hpb.1.2.2] using hstore

/-- The loop of `recover_from_log` copies a logged block home. -/
theorem wp_recoverBlock (hs : s.Wf) (htail : tail < logMaxSize)
    (hne : s.header.entry tail ≠ sb.logBlock tail)
    {E : Fault → Prop} (hp : ∀ c, s.Held (s.header.entry tail) c → E .blocked)
    (hq : ∀ c, s.Held (sb.logBlock tail) c → E .blocked) (hclean : s.Clean (sb.logBlock tail)) :
    wp (recoverBlock sb tail)
      (fun _ t => s.CopiesBlock (s.header.entry tail) (sb.logBlock tail) (fun _ => False) t)
      E s := by
  rw [recoverBlock, wp_bind]
  refine wp_mono (wp_cacheAcquire hs hq) (fun a t ht => ?_) fun _ he => he
  rw [wp_bind]
  refine wp_headerBlockNo htail ?_
  rw [ht.header, wp_bind]
  have hp' : ∀ c, t.Held (s.header.entry tail) c → E .blocked := by
    intro c hc
    rcases ht.held_iff.mp hc with hc | ⟨heq, -⟩
    · exact hp c hc
    · exact absurd heq hne
  refine wp_mono (wp_cacheAcquire ht.wf hp') (fun b u hu => ?_) fun _ he => he
  have hboth := (ht.both hs hu).symm
  have hpb : u.Held (s.header.entry tail) b := (hboth.held_iff _ b).mpr (.inr (.inl ⟨rfl, rfl⟩))
  have hstore := hboth.quiet.wf.stores hpb (v := (u.heap a).data)
    (U := fun _ => False) (fun _ h => h.elim)
    (f := fun c => { c with data := (u.heap a).data }) rfl rfl rfl rfl rfl (by simp)
  rw [wp_bind, copyAndWrite, wp_modify]
  refine hboth.wp_release hs hne (fun _ => ht.not_held) hclean (fun _ h => h.elim) ?_
  simpa [deviceWrite, hpb.1.2.2] using hstore

/-! ### The two functions -/

/-- `write_header` writes one block, which is never cached. -/
theorem wp_writeHeader (hs : s.Wf) (hhead : ∀ a, ¬ s.Live sb.logStart a) {E : Fault → Prop} :
    wp (writeHeader sb)
      (fun _ t => s.Wrote [(sb.logStart, s.header.toBlock)] (fun _ => False) t ∧
        t.header = s.header ∧ ∀ m c, t.Live m c → s.Live m c)
      E s := by
  have hwf : (s.writeDevice sb.logStart s.header.toBlock).Wf :=
    ⟨hs.nodup, hs.lt_brk, hs.findBlock, hs.valid, hs.lock, hs.freed⟩
  rw [writeHeader, wp_modify]
  refine ⟨⟨hwf, rfl, rfl, rfl, fun _ _ => Iff.rfl, fun _ _ _ => rfl, fun m => ?_, fun m hm => ?_,
    fun m hm => ?_⟩, rfl, fun _ _ => id⟩
  · exact ⟨fun h => ⟨h, id⟩, fun h => h.1⟩
  · intro a ha hacq hpin
    have hne : m ≠ sb.logStart := by
      rintro rfl
      exact hhead a ha
    show (s.heap a).data = Function.update s.device sb.logStart s.header.toBlock m
    rw [Function.update_of_ne hne]
    exact hm a ha hacq hpin
  · show _ = Function.update s.view sb.logStart s.header.toBlock m
    by_cases hne : m = sb.logStart
    · subst hne
      rw [Function.update_self]
      exact (view_of_not_live (s := s.writeDevice sb.logStart s.header.toBlock) hhead).trans
        (Function.update_self _ _ _)
    · rw [Function.update_of_ne hne]
      refine hs.view_eq hwf (Function.update_of_ne hne _ _) (fun _ => id) fun a ha => ?_
      exact .inl ⟨ha, rfl⟩

/-- Clearing the header in memory touches no buffer. -/
theorem Wrote.setHeader {ws : List (ℕ × BlockData)} {U : ℕ → Prop} (h : s.Wrote ws U t)
    (header : LogHeader) : s.Wrote ws U { t with header := header } where
  wf := ⟨h.wf.nodup, h.wf.lt_brk, h.wf.findBlock, h.wf.valid, h.wf.lock, h.wf.freed⟩
  log := h.log
  device := h.device
  trace := h.trace
  held_iff := h.held_iff
  heap_of_held := h.heap_of_held
  pinned_iff := h.pinned_iff
  clean := h.clean
  view_eq := h.view_eq

theorem wp_clearHeader (hs : s.Wf) (hhead : ∀ a, ¬ s.Live sb.logStart a) {E : Fault → Prop} :
    wp (clearHeader sb)
      (fun _ t =>
        s.Wrote [(sb.logStart, ({ s.header with numBlocks := 0 } : LogHeader).toBlock)]
          (fun _ => False) t ∧
        t.header = { s.header with numBlocks := 0 } ∧ ∀ m c, t.Live m c → s.Live m c)
      E s := by
  rw [clearHeader, wp_bind, wp_modify]
  have hcleared := (Wrote.refl hs).setHeader { s.header with numBlocks := 0 }
  refine wp_mono (wp_writeHeader hcleared.wf hhead) (fun _ t ht => ?_) fun _ he => he
  exact ⟨hcleared.trans ht.1 (by simp), ht.2⟩

/-- The logged blocks with their cached contents. -/
def group (s : Bcache) : List (ℕ × BlockData) := s.header.logged.map fun n => (n, s.view n)

theorem map_fst_group : s.group.map Prod.fst = s.header.logged := by
  rw [group, List.map_map]
  exact List.map_id _

theorem length_group : s.group.length = s.header.numBlocks := by
  rw [group, List.length_map, LogHeader.length_logged]

theorem getElem_group {k : ℕ} (hk : k < s.group.length) :
    s.group[k] = (s.header.entry k, s.view (s.header.entry k)) := by
  simp only [group, List.getElem_map, LogHeader.getElem_logged]

/-- `commit` can run: the log can hold the logged blocks, and the blocks of the
log are not in use. -/
structure Committable (sb : SuperBlock) (s : Bcache) : Prop where
  wf : s.Wf
  head : ∀ a, ¬ s.Live sb.logStart a
  fits : (logFormat sb).Fits s.header.logged
  clean : ∀ n ∈ s.header.logged, s.Clean n
  slot : ∀ i < s.header.numBlocks, (∀ a, ¬ s.Held (sb.logBlock i) a) ∧ s.Clean (sb.logBlock i)

namespace Committable

variable (h : Committable sb s)
include h

theorem length_group_le : s.group.length ≤ (logFormat sb).cap := by
  rw [length_group, ← LogHeader.length_logged]
  exact h.fits.1

theorem numBlocks_le : s.header.numBlocks ≤ (logFormat sb).cap := by
  rw [← length_group]
  exact h.length_group_le

theorem lt_logMaxSize {k : ℕ} (hk : k < s.header.numBlocks) : k < logMaxSize :=
  Nat.lt_of_lt_of_le hk (h.numBlocks_le.trans (min_le_right _ _))

theorem lt_cap {k : ℕ} (hk : k < s.header.numBlocks) : k < (logFormat sb).cap :=
  Nat.lt_of_lt_of_le hk h.numBlocks_le

omit h in
theorem entry_mem {k : ℕ} (hk : k < s.header.numBlocks) : s.header.entry k ∈ s.header.logged :=
  List.mem_map_of_mem (List.mem_range.mpr hk)

theorem outside {k : ℕ} (hk : k < s.header.numBlocks) :
    (logFormat sb).Outside (s.header.entry k) := h.fits.2 _ (entry_mem hk)

theorem entry_ne {k : ℕ} (hk : k < s.header.numBlocks) : s.header.entry k ≠ sb.logBlock k :=
  (h.outside hk).2 k (h.lt_cap hk)

/-- The first loop of `commit` fills the log blocks. -/
theorem wp_copiesToLog {E : Fault → Prop}
    (hE : ∀ n ∈ s.header.logged, ∀ a, s.Held n a → E .blocked) :
    wp (forUpTo s.header.numBlocks (commitToLog sb))
      (fun _ t => s.Wrote ((logFormat sb).fills s.group) (fun _ => False) t ∧
        t.header = s.header ∧ (∀ a, ¬ t.Live sb.logStart a) ∧
        ∀ n ∈ s.header.logged, ∀ a, ¬ s.Held n a)
      E s := by
  refine wp_mono (wp_forUpTo
    (fun k t => s.Wrote (((logFormat sb).fills s.group).take k) (fun _ => False) t ∧
      t.header = s.header ∧ (∀ a, ¬ t.Live sb.logStart a) ∧
      ∀ i < k, ∀ a, ¬ s.Held (s.header.entry i) a)
    ⟨Wrote.refl h.wf, rfl, h.head, fun i hi => absurd hi (Nat.not_lt_zero i)⟩
    fun k hk t ht => ?_) (fun _ t ht => ?_) fun _ he => he
  · obtain ⟨hw, hhdr, hnone, hidle⟩ := ht
    have hclean := h.clean _ (entry_mem hk)
    have hview : t.view (s.header.entry k) = s.view (s.header.entry k) := by
      rw [hw.view_eq _ hclean]
      exact (RedoLog.writeAll_fills_take h.length_group_le k s.view).2 _ (h.outside hk)
    refine wp_mono (wp_commitToLog hw.wf (h.lt_logMaxSize hk) ?_ ?_ ?_ ?_) (fun _ u hu => ?_)
      fun _ he => he
    · rw [hhdr]
      exact (h.entry_ne hk).symm
    · exact fun c hc => absurd ((hw.held_iff _ c).mp hc) ((h.slot k hk).1 c)
    · rw [hhdr]
      exact fun c hc => hE _ (entry_mem hk) c ((hw.held_iff _ c).mp hc)
    · rw [hhdr]
      exact hw.clean _ hclean
    · have hk' : k < ((logFormat sb).fills s.group).length := by
        rw [RedoLog.length_fills, length_group]
        exact hk
      have hget : ((logFormat sb).fills s.group)[k] = (sb.logBlock k, t.view (t.header.entry k)) := by
        rw [hhdr, hview]
        simp only [RedoLog.fills, List.getElem_mapIdx, getElem_group]
        rfl
      refine ⟨?_, hu.header.trans hhdr, fun c hc => ?_, fun i hi c hc => ?_⟩
      · rw [List.take_succ_eq_append_getElem hk', hget]
        exact hw.trans hu.wrote (by simp)
      · rcases hu.live _ c hc with heq | heq | ⟨d, hd⟩
        · exact (logFormat sb).slot_ne_head k (h.lt_cap hk) heq.symm
        · rw [hhdr] at heq
          exact (h.outside hk).1 heq.symm
        · exact hnone d hd
      · by_cases hik : i < k
        · exact hidle i hik c hc
        · obtain rfl : i = k := by omega
          refine hu.idle c ?_
          rw [hhdr]
          exact (hw.held_iff _ c).mpr hc
  · obtain ⟨hw, hhdr, hnone, hidle⟩ := ht
    rw [List.take_of_length_le (by rw [RedoLog.length_fills, length_group])] at hw
    refine ⟨hw, hhdr, hnone, fun n hn => ?_⟩
    obtain ⟨i, hi, rfl⟩ := List.mem_map.mp hn
    exact hidle i (List.mem_range.mp hi)

/-- After the fills and the header write the log blocks are seen with the
contents of the group, whichever home blocks have been written. -/
theorem view_logBlock {hb : BlockData} {U : ℕ → Prop} {k j : ℕ} (hk : k < s.header.numBlocks)
    (hw : s.Wrote ((logFormat sb).fills s.group ++ (sb.logStart, hb) :: s.group.take j) U t) :
    t.view (sb.logBlock k) = s.view (s.header.entry k) := by
  have hk' : k < s.group.length := by
    rw [length_group]
    exact hk
  have houtside : ∀ w ∈ s.group.take j, (logFormat sb).Outside w.1 := by
    intro w hw
    refine h.fits.2 _ ?_
    rw [← map_fst_group]
    exact List.mem_map_of_mem (List.mem_of_mem_take hw)
  have hne : sb.logBlock k ≠ sb.logStart := (logFormat sb).slot_ne_head k (h.lt_cap hk)
  calc t.view (sb.logBlock k)
      = writeAll (Function.update (writeAll s.view ((logFormat sb).fills s.group)) sb.logStart hb)
          (s.group.take j) (sb.logBlock k) := by
        rw [hw.view_eq _ (h.slot k hk).2, writeAll_append, writeAll_cons]
    _ = writeAll s.view ((logFormat sb).fills s.group) (sb.logBlock k) := by
        rw [← Function.update_of_ne hne hb (writeAll s.view ((logFormat sb).fills s.group))]
        exact (RedoLog.writeAll_log houtside _).2 k (h.lt_cap hk)
    _ = s.view (s.header.entry k) := by
        have hfill := RedoLog.writeAll_fills_slot h.length_group_le s.view hk'
        rw [getElem_group hk'] at hfill
        exact hfill

/-- The second loop of `commit` writes the group to the home blocks. -/
theorem wp_copiesHome {E : Fault → Prop}
    (hE : ∀ n ∈ s.header.logged, ∀ a, s.Held n a → E .blocked) {hb : BlockData}
    (hw : s.Wrote ((logFormat sb).fills s.group ++ [(sb.logStart, hb)]) (fun _ => False) t)
    (hhdr : t.header = s.header) (hnone : ∀ a, ¬ t.Live sb.logStart a) :
    wp (forUpTo s.header.numBlocks (commitToHome sb))
      (fun _ u => s.Wrote ((logFormat sb).fills s.group ++ (sb.logStart, hb) :: s.group)
          (· ∈ s.header.logged) u ∧
        u.header = s.header ∧ ∀ a, ¬ u.Live sb.logStart a)
      E t := by
  refine wp_mono (wp_forUpTo
    (fun k u => s.Wrote ((logFormat sb).fills s.group ++ (sb.logStart, hb) :: s.group.take k)
        (· ∈ s.header.logged.take k) u ∧
      u.header = s.header ∧ ∀ a, ¬ u.Live sb.logStart a)
    ⟨by simpa using hw, hhdr, hnone⟩ fun k hk u hu => ?_) (fun _ u hu => ?_) fun _ he => he
  · obtain ⟨hw, hhdr, hnone⟩ := hu
    have hview := h.view_logBlock hk hw
    refine wp_mono (wp_commitToHome hw.wf (h.lt_logMaxSize hk) ?_ ?_ ?_ ?_) (fun _ v hv => ?_)
      fun _ he => he
    · rw [hhdr]
      exact h.entry_ne hk
    · rw [hhdr]
      exact fun c hc => hE _ (entry_mem hk) c ((hw.held_iff _ c).mp hc)
    · exact fun c hc => absurd ((hw.held_iff _ c).mp hc) ((h.slot k hk).1 c)
    · exact hw.clean _ (h.slot k hk).2
    · have hk' : k < s.group.length := by
        rw [length_group]
        exact hk
      have hk'' : k < s.header.logged.length := by
        rw [LogHeader.length_logged]
        exact hk
      have hwrote := hv.wrote
      rw [hhdr, hview] at hwrote
      refine ⟨?_, hv.header.trans hhdr, fun c hc => ?_⟩
      · rw [List.take_succ_eq_append_getElem hk', getElem_group hk', ← List.cons_append,
          ← List.append_assoc]
        refine hw.trans hwrote fun m => ?_
        rw [List.take_succ_eq_append_getElem hk'', List.mem_append, List.mem_singleton,
          LogHeader.getElem_logged]
      · rcases hv.live _ c hc with heq | heq | ⟨d, hd⟩
        · rw [hhdr] at heq
          exact (h.outside hk).1 heq.symm
        · exact (logFormat sb).slot_ne_head k (h.lt_cap hk) heq.symm
        · exact hnone d hd
  · rwa [List.take_of_length_le (by rw [length_group]),
      List.take_of_length_le (by rw [LogHeader.length_logged])] at hu

end Committable

/-- **`commit`.**  It returns, unless somebody holds a logged block, and its
device writes are those of the redo log for the group of logged blocks. -/
theorem wp_commit (h : Committable sb s) {E : Fault → Prop}
    (hE : ∀ n ∈ s.header.logged, ∀ a, s.Held n a → E .blocked) :
    wp (commit sb)
      (fun _ t =>
        s.Wrote ((logFormat sb).commit s.group s.header.toBlock
          ({ s.header with numBlocks := 0 } : LogHeader).toBlock) (· ∈ s.header.logged) t ∧
        t.header = { s.header with numBlocks := 0 } ∧ (∀ a, ¬ t.Live sb.logStart a) ∧
        ∀ n ∈ s.header.logged, ∀ a, ¬ s.Held n a)
      E s := by
  rw [commit, wp_bind, wp_get, wp_bind]
  refine wp_mono (h.wp_copiesToLog hE) (fun _ t ht => ?_) fun _ he => he
  obtain ⟨hw, hhdr, hnone, hidle⟩ := ht
  rw [wp_bind]
  refine wp_mono (wp_writeHeader hw.wf hnone) (fun _ t' ht' => ?_) fun _ he => he
  obtain ⟨hw', hhdr', hlive'⟩ := ht'
  rw [hhdr] at hw'
  rw [wp_bind]
  refine wp_mono (h.wp_copiesHome hE (hw.trans hw' (by simp)) (hhdr'.trans hhdr)
    fun a ha => hnone a (hlive' _ a ha)) (fun _ u hu => ?_) fun _ he => he
  obtain ⟨hu, hhdru, hnoneu⟩ := hu
  refine wp_mono (wp_clearHeader hu.wf hnoneu) (fun _ v hv => ?_) fun _ he => he
  obtain ⟨hv, hhdrv, hlivev⟩ := hv
  rw [hhdru] at hv hhdrv
  refine ⟨?_, hhdrv, fun a ha => hnoneu a (hlivev _ a ha), hidle⟩
  have hall := hu.trans hv (W := (· ∈ s.header.logged)) (by simp)
  rwa [List.append_assoc, List.cons_append] at hall

/-- What the second section of `cache_end_op` does. -/
structure Commits (sb : SuperBlock) (s t : Bcache) : Prop where
  wrote : s.Wrote ((logFormat sb).commit s.group s.header.toBlock
    ({ s.header with numBlocks := 0 } : LogHeader).toBlock) (· ∈ s.header.logged)
    { t with log := s.log }
  header : t.header = { s.header with numBlocks := 0 }
  head : ∀ a, ¬ t.Live sb.logStart a
  log : t.log = { s.log with committing := false }
  /-- nobody held a logged block -/
  idle : ∀ n ∈ s.header.logged, ∀ a, ¬ s.Held n a

theorem wp_commitSection (h : Committable sb s) {E : Fault → Prop}
    (hE : ∀ n ∈ s.header.logged, ∀ a, s.Held n a → E .blocked) :
    wp (commitSection sb) (fun _ t => s.Commits sb t) E s := by
  rw [commitSection, wp_bind]
  refine wp_mono (wp_commit h hE) (fun _ t ht => ?_) fun _ he => he
  obtain ⟨hw, hhdr, hhead, hidle⟩ := ht
  rw [wp_modify]
  refine ⟨?_, hhdr, hhead, by rw [hw.log], hidle⟩
  rw [← hw.log]
  exact hw

/-! ### Initialisation -/

theorem not_live_boot (D : ℕ → BlockData) (m : ℕ) : ¬ (Bcache.boot sb D).Live m a := by
  rintro ⟨-, hv, -⟩
  cases hv

theorem wf_boot (D : ℕ → BlockData) : (Bcache.boot sb D).Wf where
  nodup := List.nodup_reverse.mpr List.nodup_range
  lt_brk a ha := List.mem_range.mp (List.mem_reverse.mp ha)
  findBlock n a ha := absurd ha (not_live_boot D n)
  valid a _ hflag := by rcases hflag with hflag | hflag <;> cases hflag
  lock _ := rfl
  freed a ha := by cases ha

/-- **`recover_from_log`.**  On a disk whose log can be replayed it returns, and
its device writes are those of the replay. -/
theorem wp_recoverFromLog {D : ℕ → BlockData} (hD : (logFormat sb).Sound D) :
    wp (recoverFromLog sb)
      (fun _ t => (Bcache.boot sb D).Wrote ((logFormat sb).replay D) (fun _ => False) t ∧
        t.header.numBlocks = 0 ∧ ∀ a, ¬ t.Live sb.logStart a)
      (fun _ => False) (Bcache.boot sb D) := by
  set s := Bcache.boot sb D with hs
  set F := logFormat sb with hF
  have hwf : s.Wf := wf_boot D
  have hnone : ∀ m a, ¬ s.Live m a := fun m a => not_live_boot D m
  have hview : s.view = D := funext fun m => view_of_not_live (hnone m)
  have hclean : ∀ m, s.Clean m := fun m a ha => absurd ha (hnone m a)
  have hfits : F.Fits s.header.logged := hD
  have hcopy : F.copies D s.header.logged = F.copies D (F.targets (D F.head)) := rfl
  have hlen : s.header.numBlocks ≤ F.cap := by
    rw [← LogHeader.length_logged]
    exact hfits.1
  have hmem : ∀ k < s.header.numBlocks, F.Outside (s.header.entry k) := fun k hk =>
    hfits.2 _ (List.mem_map_of_mem (List.mem_range.mpr hk))
  have hlt : ∀ k < s.header.numBlocks, k < logMaxSize := fun k hk =>
    Nat.lt_of_lt_of_le hk (hlen.trans (min_le_right _ _))
  rw [recoverFromLog, wp_bind, wp_get, wp_bind]
  refine wp_mono (wp_forUpTo
    (fun k t => s.Wrote ((F.copies D s.header.logged).take k) (fun _ => False) t ∧
      t.header = s.header ∧ ∀ a, ¬ t.Live sb.logStart a)
    ⟨Wrote.refl hwf, rfl, hnone _⟩ fun k hk t ht => ?_) (fun _ t ht => ?_) fun _ he => he
  · obtain ⟨hw, hhdr, hnohead⟩ := ht
    have hslot : k < F.cap := by omega
    have hheld : ∀ m c, ¬ t.Held m c := fun m c hc => hnone m c ((hw.held_iff m c).mp hc).1
    -- the log blocks are seen as they are on the disk
    have hv : t.view (sb.logBlock k) = D (sb.logBlock k) := by
      rw [hw.view_eq _ (hclean _), hview]
      exact (RedoLog.writeAll_log
        (fun w hw => hfits.outside (List.mem_of_mem_take hw)) D).2 k hslot
    refine wp_mono (wp_recoverBlock hw.wf (hlt k hk) ?_ (fun c hc => hheld _ c hc)
      (fun c hc => hheld _ c hc) (hw.clean _ (hclean _)))
      (fun _ u hu => ?_) fun _ he => he
    · rw [hhdr]
      exact (hmem k hk).2 k hslot
    · have hk' : k < (F.copies D s.header.logged).length := by
        rw [RedoLog.copies, List.length_mapIdx, LogHeader.length_logged]
        exact hk
      have hget : (F.copies D s.header.logged)[k] = (s.header.entry k, D (sb.logBlock k)) := by
        simp only [RedoLog.copies, List.getElem_mapIdx, LogHeader.getElem_logged]
        rfl
      have hwrote := hu.wrote
      rw [hhdr, hv] at hwrote
      refine ⟨?_, hu.header.trans hhdr, fun c hc => ?_⟩
      · rw [List.take_succ_eq_append_getElem hk', hget]
        exact hw.trans hwrote (by simp)
      · rcases hu.live _ c hc with heq | heq | ⟨d, hd⟩
        · rw [hhdr] at heq
          exact (hmem k hk).1 heq.symm
        · exact F.slot_ne_head k hslot heq.symm
        · exact hnohead d hd
  · obtain ⟨hw, hhdr, hnohead⟩ := ht
    rw [List.take_of_length_le (by
      rw [RedoLog.copies, List.length_mapIdx, LogHeader.length_logged])] at hw
    refine wp_mono (wp_clearHeader hw.wf hnohead) (fun _ u hu => ?_) fun _ he => he
    obtain ⟨hu, hhdru, hliveu⟩ := hu
    rw [hhdr] at hu
    exact ⟨hw.trans hu (by simp), by rw [hhdru], fun a ha => hnohead a (hliveu _ a ha)⟩

/-- What `init_bcache` leaves: the log is replayed, and nothing is cached that
differs from the device. -/
structure Booted (sb : SuperBlock) (D : ℕ → BlockData) (s : Bcache) : Prop where
  wf : s.Wf
  device : s.device = writeAll D ((logFormat sb).replay D)
  trace : s.trace = (logFormat sb).replay D
  held : ∀ m a, ¬ s.Held m a
  pinned : ∀ m, ¬ s.Pinned m
  clean : ∀ m, s.Clean m
  head : ∀ a, ¬ s.Live sb.logStart a
  log : s.log = ⟨false, 0⟩
  header : s.header.numBlocks = 0

/-- **`init_bcache`** returns on every disk whose log can be replayed. -/
theorem initBcache_spec {D : ℕ → BlockData} (hD : (logFormat sb).Sound D) :
    ∃ s, initBcache sb D = .ok s ∧ Booted sb D s := by
  obtain ⟨_, s, hrun, hw, hhdr, hhead⟩ := exists_run_of_wp (wp_recoverFromLog hD)
  refine ⟨s, by rw [initBcache, hrun]; rfl, hw.wf, hw.device, ?_, ?_, ?_, ?_, hhead, hw.log, hhdr⟩
  · rw [hw.trace]
    rfl
  · exact fun m a ha => not_live_boot D m ((hw.held_iff m a).mp ha).1
  · rintro m hm
    obtain ⟨a, ha, -⟩ := ((hw.pinned_iff m).mp hm).1
    exact not_live_boot D m ha
  · exact fun m => hw.clean m fun a ha => absurd ha (not_live_boot D m)

end Bcache
end OsLab
