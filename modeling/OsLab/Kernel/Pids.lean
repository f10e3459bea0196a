/-
The pids of the processes (`get_pid`, `release_pid`, `create_proc` and `wait` of
`kernel/proc.c`).

`get_pid` looks for a free pid behind the last one and then from the start; when there is none,
it returns -1, which `init_proc` stores.

* `getPid_some`, `getPid_none` — what the two loops find;
* `ProcTree.ShapeStep`, `shape_step` — what a section does to the lists of children and to the
  pids;
* `ProcTree.ValidPids` — the processes that have been created and not been reaped have pids of
  their own;
* `pids_valid_iff` — so it is in the runs in which no process is created when all pids are
  taken; one that is created then has no valid pid;
* `pids_exhausted` — the 2048th process that is created.
-/
import OsLab.Kernel.ChildExit

namespace OsLab

/-! ### The map -/

namespace PidMap

variable {m m' : PidMap} {n : ℕ}

/-- The two loops come to every pid. -/
theorem mem_search (offset n : ℕ) (hle : offset ≤ maxPid) :
    n ∈ List.range' offset (maxPid - offset) ++ List.range offset ↔ n < maxPid := by
  rw [List.mem_append, List.mem_range'_1, List.mem_range]
  omega

theorem offset_le (m : PidMap) : ((m.lastPid + 1) % maxPid).toNat ≤ maxPid := by
  have hlt : (m.lastPid + 1) % (maxPid : ℤ) < maxPid := Int.emod_lt_of_pos _ (by decide)
  omega

theorem getPid_some (h : m.getPid = some (n, m')) : n < maxPid ∧ m.pidMap n = false ∧
    m' = ⟨Function.update m.pidMap n true, n⟩ := by
  obtain ⟨pid, hfind, heq⟩ := Option.map_eq_some_iff.mp h
  obtain ⟨rfl, rfl⟩ := Prod.mk.inj heq
  have hfree := List.find?_some hfind
  exact ⟨(mem_search _ _ (offset_le m)).mp (List.mem_of_find?_eq_some hfind),
    by simpa using hfree, rfl⟩

theorem getPid_none : m.getPid = none ↔ ∀ n < maxPid, m.pidMap n = true := by
  rw [getPid, Option.map_eq_none_iff, List.find?_eq_none]
  constructor
  · intro h n hn
    simpa using h n ((mem_search _ n (offset_le m)).mpr hn)
  · intro h n hn
    simpa using h n ((mem_search _ n (offset_le m)).mp hn)

end PidMap

namespace ProcTree

/-! ### The sections -/

/-- What a section does to the processes, their children and their pids. -/
inductive ShapeStep (s t : ProcTree) (l : ProcCall) : Prop
  | create (hl : l = .create) (ht : t = s.createProc)
  /-- a process without a parent becomes a child -/
  | link (p c : ℕ) (hl : l ≠ .create) (hp : p < s.next) (hc : c < s.next) (hnone : s.parent c = none)
      (hnext : t.next = s.next) (hpids : t.pids = s.pids) (hpid : t.pid = s.pid)
      (hparent : t.parent = Function.update s.parent c (some p))
      (hchildren : t.children = Function.update s.children p (c :: s.children p))
  /-- `exit` by `p` -/
  | move (p : ℕ) (hl : l ≠ .create) (hnext : t.next = s.next) (hpids : t.pids = s.pids)
      (hpid : t.pid = s.pid)
      (hparent : t.parent = fun c => if c ∈ s.children p then some rootProc else s.parent c)
      (hchildren : t.children = (s.moveChildren p).children)
  /-- `wait` by `p` reaps `c` -/
  | reap (p c : ℕ) (hl : l ≠ .create) (hc : c ∈ s.children p) (hnext : t.next = s.next)
      (hpids : t.pids = s.pids.release (s.pid c).toNat) (hpid : t.pid = s.pid)
      (hparent : t.parent = s.parent)
      (hchildren : t.children = Function.update s.children p ((s.children p).erase c))
  | other (hl : l ≠ .create) (hnext : t.next = s.next) (hpids : t.pids = s.pids)
      (hpid : t.pid = s.pid) (hparent : t.parent = s.parent) (hchildren : t.children = s.children)

/-- Only a process that has been created is in a function. -/
structure Allocated (s : ProcTree) : Prop where
  unused : ∀ p, s.next ≤ p → s.life p = .unused
  outside : ∀ p, s.next ≤ p → s.pc p = .outside
  starting : ∀ p c, s.pc p = .starting c → c < s.next

variable {s t : ProcTree} {p c d : ℕ} {l : ProcCall} {pc : ProcPc}

namespace Allocated

theorem congr (h : s.Allocated) (hnext : t.next = s.next) (hlife : t.life = s.life)
    (hpc : t.pc = s.pc) : t.Allocated := by
  constructor
  · rw [hnext, hlife]
    exact h.unused
  · rw [hnext, hpc]
    exact h.outside
  · rw [hnext, hpc]
    exact h.starting

theorem lt_of_pc (h : s.Allocated) (hp : s.pc p ≠ .outside) : p < s.next :=
  Nat.lt_of_not_le fun hle => hp (h.outside p hle)

theorem lt_of_runs (h : s.Allocated) (hp : s.Runs p) : p < s.next := by
  refine Nat.lt_of_not_le fun hle => ?_
  have hlife := hp.1
  rw [h.unused p hle] at hlife
  cases hlife

theorem setPc (h : s.Allocated) (hp : p < s.next) (hpc : ∀ c, pc = .starting c → c < s.next) :
    (s.setPc p pc).Allocated := by
  constructor
  case unused => exact h.unused
  case outside =>
    intro q hq
    show Function.update s.pc p pc q = _
    rw [Function.update_of_ne (show q ≠ p by rintro rfl; exact absurd hp (Nat.not_lt_of_le hq))]
    exact h.outside q hq
  case starting =>
    intro q c hq
    change Function.update s.pc p pc q = _ at hq
    by_cases hqp : q = p
    · rw [hqp, Function.update_self] at hq
      exact hpc c hq
    · rw [Function.update_of_ne hqp] at hq
      exact h.starting q c hq

theorem setLife (h : s.Allocated) (hp : p < s.next) (life : Life) :
    Allocated { s with life := Function.update s.life p life } := by
  refine ⟨fun q hq => ?_, h.outside, h.starting⟩
  show Function.update s.life p life q = _
  rw [Function.update_of_ne (show q ≠ p by rintro rfl; exact absurd hp (Nat.not_lt_of_le hq))]
  exact h.unused q hq

theorem create (h : s.Allocated) : s.createProc.Allocated := by
  have hne : ∀ q, s.next + 1 ≤ q → q ≠ s.next := fun q hq => by omega
  constructor
  case unused =>
    intro q hq
    show Function.update s.life s.next _ q = _
    rw [Function.update_of_ne (hne q hq)]
    exact h.unused q (Nat.le_of_succ_le hq)
  case outside =>
    intro q hq
    show Function.update s.pc s.next _ q = _
    rw [Function.update_of_ne (hne q hq)]
    exact h.outside q (Nat.le_of_succ_le hq)
  case starting =>
    intro q c hq
    change Function.update s.pc s.next _ q = _ at hq
    by_cases hqn : q = s.next
    · rw [hqn, Function.update_self] at hq
      cases hq
    · rw [Function.update_of_ne hqn] at hq
      exact Nat.lt_succ_of_lt (h.starting q c hq)

end Allocated

/-- The loop of `exit` only changes parents and a semaphore. -/
theorem adopt_some (cs : List ℕ) : ∀ {s t : ProcTree}, s.adopt cs = some t →
    t.next = s.next ∧ t.pids = s.pids ∧ t.pid = s.pid ∧ t.children = s.children ∧
      t.life = s.life ∧ t.pc = s.pc ∧
      t.parent = fun c => if c ∈ cs then some rootProc else s.parent c := by
  induction cs with
  | nil =>
    intro s t h
    obtain rfl := Option.some.inj h
    simp
  | cons c cs ih =>
    intro s t h
    have hparent : ∀ parent : ℕ → Option ℕ, parent = Function.update s.parent c (some rootProc) →
        (fun d => if d ∈ cs then some rootProc else parent d) =
          fun d => if d ∈ c :: cs then some rootProc else s.parent d := by
      rintro _ rfl
      funext d
      by_cases hd : d = c <;> simp [hd]
    rw [adopt] at h
    dsimp only at h
    split at h
    · obtain ⟨u, hpost, hadopt⟩ := Option.bind_eq_some_iff.mp h
      obtain ⟨sem, -, rfl⟩ := Option.map_eq_some_iff.mp hpost
      obtain ⟨hnext, hpids, hpid, hchildren, hlife, hpc, hp⟩ := ih hadopt
      exact ⟨hnext, hpids, hpid, hchildren, hlife, hpc, hp.trans (hparent _ rfl)⟩
    · obtain ⟨hnext, hpids, hpid, hchildren, hlife, hpc, hp⟩ := ih h
      exact ⟨hnext, hpids, hpid, hchildren, hlife, hpc, hp.trans (hparent _ rfl)⟩

theorem exit_shape (ha : s.Allocated) (hp : p < s.next) {code : ℤ}
    (hs : s.exit p code = some t) : s.ShapeStep t (.exit p code) ∧ t.Allocated := by
  obtain ⟨u, hadopt, hrest⟩ := Option.bind_eq_some_iff.mp hs
  obtain ⟨q, -, hrest⟩ := Option.bind_eq_some_iff.mp hrest
  obtain ⟨v, hpost, hrest⟩ := Option.bind_eq_some_iff.mp hrest
  obtain ⟨sem, -, rfl⟩ := Option.map_eq_some_iff.mp hpost
  obtain rfl := Option.some.inj hrest
  obtain ⟨hnext, hpids, hpid, hchildren, hlife, hpc, hparent⟩ := adopt_some _ hadopt
  constructor
  · refine .move p nofun hnext hpids hpid hparent ?_
    show (u.moveChildren p).children = _
    unfold moveChildren
    rw [hchildren]
  · have hu : u.Allocated := ha.congr hnext hlife hpc
    have hset : (u.setPc p .exiting).Allocated := hu.setPc (hnext.symm ▸ hp) nofun
    exact hset.congr rfl rfl rfl

/-- **The sections**: all but five leave children and pids alone. -/
theorem shape_step (ha : s.Allocated) (hs : s.step l = some t) :
    s.ShapeStep t l ∧ t.Allocated := by
  cases l with
  | create =>
    obtain rfl := Option.some.inj hs
    exact ⟨.create rfl rfl, ha.create⟩
  | setParent p c =>
    simp only [step] at hs
    split at hs
    · rename_i hif
      obtain rfl := Option.some.inj hs
      exact ⟨.link p c (by simp) (ha.lt_of_runs hif.1) hif.2.1 hif.2.2 rfl rfl rfl rfl rfl,
        ha.congr rfl rfl rfl⟩
    · cases hs
  | start p c =>
    simp only [step] at hs
    split at hs
    · rename_i hif
      obtain rfl := Option.some.inj hs
      have hp := ha.lt_of_runs hif.1
      have hset : (s.setPc p (.starting c)).Allocated := ha.setPc hp fun d hd => by
        cases hd
        exact hif.2.1
      split
      · rename_i hnone
        exact ⟨.link rootProc c (by simp) (Nat.lt_of_le_of_lt (Nat.zero_le p) hp) hif.2.1 hnone rfl rfl
          rfl rfl rfl, hset.congr rfl rfl rfl⟩
      · exact ⟨.other (by simp) rfl rfl rfl rfl rfl, hset⟩
    · cases hs
  | activate p =>
    simp only [step] at hs
    split at hs
    · rename_i c hpc
      obtain rfl := Option.some.inj hs
      have hset : (s.setPc p .outside).Allocated :=
        ha.setPc (ha.lt_of_pc (by rw [hpc]; simp)) (by simp)
      split
      · exact ⟨.other (by simp) rfl rfl rfl rfl rfl, hset.setLife (ha.starting p c hpc) .active⟩
      · exact ⟨.other (by simp) rfl rfl rfl rfl rfl, hset⟩
    · cases hs
  | exit p code =>
    simp only [step] at hs
    split at hs
    · rename_i hruns
      exact exit_shape ha (ha.lt_of_runs hruns) hs
    · cases hs
  | schedZombie p =>
    simp only [step] at hs
    split at hs
    · rename_i hpc
      obtain rfl := Option.some.inj hs
      have hp := ha.lt_of_pc (p := p) (by rw [hpc]; simp)
      have hset : (s.setPc p .gone).Allocated := ha.setPc hp (by simp)
      exact ⟨.other (by simp) rfl rfl rfl rfl rfl, hset.setLife hp .zombie⟩
    · cases hs
  | wait p =>
    simp only [step] at hs
    split at hs
    · rename_i hruns
      obtain rfl := Option.some.inj hs
      unfold wait
      split
      · exact ⟨.other (by simp) rfl rfl rfl rfl rfl, ha.congr rfl rfl rfl⟩
      · exact ⟨.other (by simp) rfl rfl rfl rfl rfl, ha.setPc (ha.lt_of_runs hruns) (by simp)⟩
    · cases hs
  | waitSem p =>
    simp only [step] at hs
    split at hs
    · rename_i hpc
      obtain rfl := Option.some.inj hs
      have hp := ha.lt_of_pc (p := p) (by rw [hpc]; simp)
      refine ⟨.other (by simp) rfl rfl rfl rfl rfl, (ha.setPc hp fun c hc => ?_).congr rfl rfl rfl⟩
      split at hc <;> cases hc
    · cases hs
  | resume p =>
    simp only [step] at hs
    split at hs
    · rename_i hpc
      obtain ⟨sem, -, rfl⟩ := Option.map_eq_some_iff.mp hs
      have hp := ha.lt_of_pc (p := p) (by rw [hpc]; simp)
      have hset : (s.setPc p (.scan ((s.childexit p).up p))).Allocated := ha.setPc hp (by simp)
      exact ⟨.other (by simp) rfl rfl rfl rfl rfl, hset.congr rfl rfl rfl⟩
    · cases hs
  | scan p =>
    simp only [step] at hs
    split at hs
    · rename_i hpc
      obtain ⟨c, hc, -, rfl⟩ := waitScan_cases hs
      have hp := ha.lt_of_pc (p := p) (by rw [hpc]; simp)
      have hset : (s.setPc p .outside).Allocated := ha.setPc hp (by simp)
      exact ⟨.reap p c (by simp) hc rfl rfl rfl rfl rfl, hset.congr rfl rfl rfl⟩
    · cases hs
  | kill p pid =>
    simp only [step] at hs
    split at hs
    · rename_i hruns
      obtain rfl := Option.some.inj hs
      unfold kill
      split
      · split
        · exact ⟨.other (by simp) rfl rfl rfl rfl rfl, ha⟩
        · rename_i c _
          have hset : (s.setPc p (.killing c)).Allocated := ha.setPc (ha.lt_of_runs hruns) (by simp)
          exact ⟨.other (by simp) rfl rfl rfl rfl rfl, hset.congr rfl rfl rfl⟩
      · exact ⟨.other (by simp) rfl rfl rfl rfl rfl, ha⟩
    · cases hs
  | alert p =>
    simp only [step] at hs
    split at hs
    · rename_i hpc
      obtain rfl := Option.some.inj hs
      have hp := ha.lt_of_pc (p := p) (by rw [hpc]; simp)
      have hset : (s.setPc p .outside).Allocated := ha.setPc hp (by simp)
      exact ⟨.other (by simp) rfl rfl rfl rfl rfl, hset.congr rfl rfl rfl⟩
    · cases hs

/-! ### The processes -/

/-- The process has been created, and has not been reaped: it is `root_proc`, or has no parent
yet, or is in a list of children. -/
def Present (s : ProcTree) (c : ℕ) : Prop :=
  c < s.next ∧ (c = rootProc ∨ s.parent c = none ∨ ∃ p, c ∈ s.children p)

/-- The processes have pids of their own. -/
structure ValidPids (s : ProcTree) : Prop where
  range : ∀ c, s.Present c → 0 ≤ s.pid c ∧ s.pid c < maxPid
  inj : ∀ c d, s.Present c → s.Present d → s.pid c = s.pid d → c = d

/-- A process is created when not all pids are taken. -/
def SparePid (s : ProcTree) : ProcCall → Prop
  | .create => ∃ n < maxPid, s.pids.pidMap n = false
  | _ => True

/-- The lists of children, and the map. -/
structure PidInv (s : ProcTree) : Prop where
  allocated : s.Allocated
  empty : ∀ p, s.next ≤ p → s.children p = []
  root : s.parent rootProc = some rootProc
  root_notMem : ∀ p, rootProc ∉ s.children p
  mem : ∀ p, ∀ c ∈ s.children p, c < s.next ∧ s.parent c = some p
  nodup : ∀ p, (s.children p).Nodup
  root_lt : rootProc < s.next
  valid : s.ValidPids
  /-- a pid is marked as long as its process is there -/
  taken : ∀ n < maxPid, s.pids.pidMap n = true ↔ ∃ c, s.Present c ∧ s.pid c = n

theorem pidInv_boot : boot.PidInv := by
  have hpresent : ∀ c, boot.Present c ↔ c = rootProc := by
    intro c
    constructor
    · intro h
      have hlt : c < 1 := h.1
      have hroot : rootProc = 0 := rfl
      omega
    · rintro rfl
      exact ⟨by decide, Or.inl rfl⟩
  constructor
  case allocated =>
    constructor
    · intro p hp
      exact if_neg (show p ≠ 0 by rintro rfl; exact absurd hp (by decide))
    · exact fun _ _ => rfl
    · nofun
  case empty => exact fun _ _ => rfl
  case root => rfl
  case root_notMem => exact fun _ => List.not_mem_nil
  case mem => exact fun _ _ hc => absurd hc List.not_mem_nil
  case nodup => exact fun _ => List.nodup_nil
  case root_lt => decide
  case valid =>
    refine ⟨fun c _ => ⟨Int.le_refl 0, (by decide : (0 : ℤ) < maxPid)⟩, fun c d hc hd _ => ?_⟩
    rw [(hpresent c).mp hc, (hpresent d).mp hd]
  case taken =>
    intro n _
    show decide (n = 0) = true ↔ _
    rw [decide_eq_true_eq]
    constructor
    · rintro rfl
      exact ⟨rootProc, (hpresent _).mpr rfl, rfl⟩
    · rintro ⟨c, -, hn⟩
      have hn' : (0 : ℤ) = n := hn
      omega

theorem ValidPids.congr (h : s.ValidPids) (hpresent : ∀ c, t.Present c → s.Present c)
    (hpid : t.pid = s.pid) : t.ValidPids := by
  constructor
  · rw [hpid]
    exact fun c hc => h.range c (hpresent c hc)
  · rw [hpid]
    exact fun c d hc hd => h.inj c d (hpresent c hc) (hpresent d hd)

/-- `create_proc` takes the pid. -/
theorem createProc_pids {n : ℕ} {m : PidMap} (hget : s.pids.getPid = some (n, m)) :
    s.createProc.pids = m := by
  simp only [createProc, hget]

namespace PidInv

/-- The pid that is found is nobody's. -/
theorem getPid_free (h : s.PidInv) {n : ℕ} {m : PidMap} (hget : s.pids.getPid = some (n, m))
    (hc : s.Present c) : s.pid c ≠ n := by
  intro heq
  obtain ⟨hlt, hfree, -⟩ := PidMap.getPid_some hget
  have htaken := (h.taken n hlt).mpr ⟨c, hc, heq⟩
  rw [hfree] at htaken
  cases htaken

/-! #### `create_proc` -/

theorem present_create (h : s.PidInv) : s.createProc.Present d ↔ s.Present d ∨ d = s.next := by
  have hnext : s.createProc.next = s.next + 1 := rfl
  unfold Present
  rw [hnext]
  by_cases hd : d = s.next
  · subst hd
    exact iff_of_true ⟨Nat.lt_succ_self _, Or.inr (Or.inl (Function.update_self _ _ _))⟩
      (Or.inr rfl)
  · have hparent : s.createProc.parent d = s.parent d := Function.update_of_ne hd _ _
    have hchildren : (∃ p, d ∈ s.createProc.children p) ↔ ∃ p, d ∈ s.children p := by
      refine exists_congr fun p => ?_
      show d ∈ Function.update s.children s.next [] p ↔ _
      by_cases hp : p = s.next
      · rw [hp, Function.update_self, h.empty s.next le_rfl]
      · rw [Function.update_of_ne hp]
    rw [hparent, hchildren, or_iff_left hd]
    exact and_congr_left fun _ => by omega

theorem create (h : s.PidInv) (hspare : s.SparePid .create) : s.createProc.PidInv := by
  cases hget : s.pids.getPid with
  | none =>
    obtain ⟨n, hn, hfree⟩ := hspare
    rw [PidMap.getPid_none.mp hget n hn] at hfree
    cases hfree
  | some r =>
    obtain ⟨n, m⟩ := r
    obtain ⟨hn, -, hm⟩ := PidMap.getPid_some hget
    -- the new process has the pid that was found, and the others keep theirs
    have hpids : s.createProc.pids = m := createProc_pids hget
    have hnew : s.createProc.pid s.next = n := by
      show Function.update s.pid s.next _ s.next = _
      rw [Function.update_self, hget]
    have hold : ∀ d, s.Present d → s.createProc.pid d = s.pid d := fun d hd =>
      Function.update_of_ne (Nat.ne_of_lt hd.1) _ _
    have hroot : rootProc ≠ s.next := Nat.ne_of_lt h.root_lt
    have hchildren : ∀ p, p ≠ s.next → s.createProc.children p = s.children p := fun p hp =>
      Function.update_of_ne hp _ _
    have hnone : s.createProc.children s.next = [] := Function.update_self _ _ _
    constructor
    case allocated => exact h.allocated.create
    case empty =>
      intro p hp
      have hne : p ≠ s.next := Nat.ne_of_gt (Nat.lt_of_succ_le hp)
      rw [hchildren p hne]
      exact h.empty p (Nat.le_of_succ_le hp)
    case root => exact (Function.update_of_ne hroot _ _).trans h.root
    case root_notMem =>
      intro p
      by_cases hp : p = s.next
      · rw [hp, hnone]
        exact List.not_mem_nil
      · rw [hchildren p hp]
        exact h.root_notMem p
    case mem =>
      intro p c hc
      by_cases hp : p = s.next
      · rw [hp, hnone] at hc
        cases hc
      · rw [hchildren p hp] at hc
        obtain ⟨hlt, hparent⟩ := h.mem p c hc
        exact ⟨Nat.lt_succ_of_lt hlt, (Function.update_of_ne (Nat.ne_of_lt hlt) _ _).trans hparent⟩
    case nodup =>
      intro p
      by_cases hp : p = s.next
      · rw [hp, hnone]
        exact List.nodup_nil
      · rw [hchildren p hp]
        exact h.nodup p
    case root_lt => exact Nat.lt_succ_of_lt h.root_lt
    case valid =>
      constructor
      · intro c hc
        rcases (present_create h).mp hc with hc | rfl
        · rw [hold c hc]
          exact h.valid.range c hc
        · rw [hnew]
          exact ⟨Int.natCast_nonneg n, by exact_mod_cast hn⟩
      · intro c d hc hd heq
        rcases (present_create h).mp hc with hc | rfl <;> rcases (present_create h).mp hd with hd | rfl
        · rw [hold c hc, hold d hd] at heq
          exact h.valid.inj c d hc hd heq
        · rw [hold c hc, hnew] at heq
          exact absurd heq (h.getPid_free hget hc)
        · rw [hold d hd, hnew] at heq
          exact absurd heq.symm (h.getPid_free hget hd)
        · rfl
    case taken =>
      intro k hk
      rw [hpids, hm]
      show Function.update s.pids.pidMap n true k = true ↔ _
      by_cases hkn : k = n
      · subst hkn
        rw [Function.update_self]
        exact iff_of_true rfl ⟨s.next, (present_create h).mpr (Or.inr rfl), hnew⟩
      · rw [Function.update_of_ne hkn, h.taken k hk]
        constructor
        · rintro ⟨c, hc, hpid⟩
          exact ⟨c, (present_create h).mpr (Or.inl hc), (hold c hc).trans hpid⟩
        · rintro ⟨c, hc, hpid⟩
          rcases (present_create h).mp hc with hc | rfl
          · exact ⟨c, hc, (hold c hc).symm.trans hpid⟩
          · rw [hnew] at hpid
            exact absurd (Int.ofNat_inj.mp hpid).symm hkn

/-- When all pids are taken, the new process has none. -/
theorem not_valid_create (h : s.PidInv) (hspare : ¬s.SparePid .create) :
    s.createProc.pid s.next = -1 ∧ ¬s.createProc.ValidPids := by
  have hnone : s.pids.getPid = none := by
    refine PidMap.getPid_none.mpr fun n hn => ?_
    exact Bool.not_eq_false _ ▸ fun hfree => hspare ⟨n, hn, hfree⟩
  have hnew : s.createProc.pid s.next = -1 := by
    show Function.update s.pid s.next _ s.next = _
    rw [Function.update_self, hnone]
  refine ⟨hnew, fun hvalid => ?_⟩
  have hrange := hvalid.range s.next ((present_create h).mpr (Or.inr rfl))
  rw [hnew] at hrange
  exact absurd hrange.1 (by decide)

/-! #### The lists -/

/-- The processes and their pids stay. -/
theorem keep (h : s.PidInv) (ha : t.Allocated) (hnext : t.next = s.next) (hpids : t.pids = s.pids)
    (hpid : t.pid = s.pid) (hpresent : ∀ c, t.Present c ↔ s.Present c)
    (hempty : ∀ p, s.next ≤ p → t.children p = []) (hroot : t.parent rootProc = some rootProc)
    (hroot_notMem : ∀ p, rootProc ∉ t.children p)
    (hmem : ∀ p, ∀ c ∈ t.children p, c < s.next ∧ t.parent c = some p)
    (hnodup : ∀ p, (t.children p).Nodup) : t.PidInv := by
  refine ⟨ha, hnext ▸ hempty, hroot, hroot_notMem, hnext ▸ hmem, hnodup, hnext ▸ h.root_lt,
    h.valid.congr (fun c => (hpresent c).mp) hpid, ?_⟩
  intro n hn
  rw [hpids, hpid, h.taken n hn]
  exact exists_congr fun c => and_congr_left fun _ => (hpresent c).symm

theorem link (h : s.PidInv) (ha : t.Allocated) (hp : p < s.next) (hc : c < s.next)
    (hnone : s.parent c = none) (hnext : t.next = s.next) (hpids : t.pids = s.pids)
    (hpid : t.pid = s.pid) (hparent : t.parent = Function.update s.parent c (some p))
    (hchildren : t.children = Function.update s.children p (c :: s.children p)) : t.PidInv := by
  -- `root_proc` is its own parent, and who is in a list has one
  have hcroot : rootProc ≠ c := by
    rintro rfl
    rw [h.root] at hnone
    cases hnone
  have hnot : ∀ q, c ∉ s.children q := by
    intro q hq
    rw [(h.mem q c hq).2] at hnone
    cases hnone
  have hself : t.children p = c :: s.children p := by rw [hchildren, Function.update_self]
  have hother : ∀ q, q ≠ p → t.children q = s.children q := fun q hq => by
    rw [hchildren, Function.update_of_ne hq]
  have hin : ∀ q d, d ∈ t.children q ↔ (q = p ∧ d = c) ∨ d ∈ s.children q := by
    intro q d
    by_cases hq : q = p
    · subst hq
      rw [hself, List.mem_cons, and_iff_right rfl]
    · rw [hother q hq]
      exact (or_iff_right fun hand => hq hand.1).symm
  refine h.keep ha hnext hpids hpid ?_ ?_ ?_ ?_ ?_ ?_
  · intro d
    unfold Present
    rw [hnext]
    refine and_congr_right fun _ => or_congr_right ?_
    by_cases hd : d = c
    · subst hd
      exact iff_of_true (Or.inr ⟨p, (hin p d).mpr (Or.inl ⟨rfl, rfl⟩)⟩) (Or.inl hnone)
    · rw [hparent, Function.update_of_ne hd]
      refine or_congr_right (exists_congr fun q => ?_)
      rw [hin]
      exact or_iff_right fun hand => hd hand.2
  · intro q hq
    rw [hother q (Nat.ne_of_gt (Nat.lt_of_lt_of_le hp hq))]
    exact h.empty q hq
  · rw [hparent, Function.update_of_ne hcroot]
    exact h.root
  · intro q hq
    exact ((hin q rootProc).mp hq).elim (fun hand => hcroot hand.2) (h.root_notMem q)
  · intro q d hd
    rcases (hin q d).mp hd with ⟨rfl, rfl⟩ | hd
    · exact ⟨hc, by rw [hparent, Function.update_self]⟩
    · have hdc : d ≠ c := by
        rintro rfl
        exact hnot q hd
      rw [hparent, Function.update_of_ne hdc]
      exact h.mem q d hd
  · intro q
    by_cases hq : q = p
    · rw [hq, hself]
      exact List.nodup_cons.mpr ⟨hnot p, h.nodup p⟩
    · rw [hother q hq]
      exact h.nodup q

/-- The children of `p` go to `root_proc`. -/
theorem move (h : s.PidInv) (ha : t.Allocated) (hnext : t.next = s.next) (hpids : t.pids = s.pids)
    (hpid : t.pid = s.pid)
    (hparent : t.parent = fun c => if c ∈ s.children p then some rootProc else s.parent c)
    (hchildren : t.children = (s.moveChildren p).children) : t.PidInv := by
  have hin : ∀ q d, d ∈ t.children q ↔
      (q = rootProc ∧ d ∈ s.children p) ∨ (q ≠ p ∧ d ∈ s.children q) := fun q d => by
    rw [hchildren]
    exact mem_moveChildren q d
  refine h.keep ha hnext hpids hpid ?_ ?_ ?_ ?_ ?_ ?_
  · intro d
    unfold Present
    rw [hnext]
    refine and_congr_right fun _ => or_congr_right (or_congr ?_ ?_)
    · rw [hparent]
      by_cases hd : d ∈ s.children p
      · simp [hd, (h.mem p d hd).2]
      · simp [hd]
    · constructor
      · rintro ⟨q, hq⟩
        exact ((hin q d).mp hq).elim (fun hand => ⟨p, hand.2⟩) fun hand => ⟨q, hand.2⟩
      · rintro ⟨q, hq⟩
        by_cases hqp : q = p
        · exact ⟨rootProc, (hin _ d).mpr (Or.inl ⟨rfl, hqp ▸ hq⟩)⟩
        · exact ⟨q, (hin q d).mpr (Or.inr ⟨hqp, hq⟩)⟩
  · intro q hq
    have hqroot : q ≠ rootProc := Nat.ne_of_gt (Nat.lt_of_lt_of_le h.root_lt hq)
    rw [hchildren, moveChildren_children, if_neg hqroot]
    split
    · rfl
    · exact h.empty q hq
  · rw [hparent]
    exact (if_neg (h.root_notMem p)).trans h.root
  · intro q hq
    exact ((hin q rootProc).mp hq).elim (fun hand => h.root_notMem p hand.2)
      fun hand => h.root_notMem q hand.2
  · intro q d hd
    rw [hparent]
    rcases (hin q d).mp hd with ⟨hq, hdp⟩ | ⟨hqp, hdq⟩
    · rw [hq]
      exact ⟨(h.mem p d hdp).1, if_pos hdp⟩
    · -- a child of another process is none of `p`
      obtain ⟨hlt, hq⟩ := h.mem q d hdq
      have hnot : d ∉ s.children p := by
        intro hdp
        rw [(h.mem p d hdp).2] at hq
        exact hqp (Option.some.inj hq).symm
      exact ⟨hlt, (if_neg hnot).trans hq⟩
  · intro q
    rw [hchildren, moveChildren_children]
    split
    · refine (mergeList_perm _ _).nodup_iff.mpr ?_
      split
      · rw [List.append_nil]
        exact h.nodup p
      · rename_i hp
        refine List.nodup_append.mpr ⟨h.nodup p, h.nodup rootProc, fun d hd e he hde => hp ?_⟩
        subst hde
        have hq := (h.mem p d hd).2
        rw [(h.mem rootProc d he).2] at hq
        exact (Option.some.inj hq).symm
    · split
      · exact List.nodup_nil
      · exact h.nodup q

/-- A child is reaped, and its pid is free. -/
theorem reap (h : s.PidInv) (ha : t.Allocated) (hc : c ∈ s.children p) (hnext : t.next = s.next)
    (hpids : t.pids = s.pids.release (s.pid c).toNat) (hpid : t.pid = s.pid)
    (hparent : t.parent = s.parent)
    (hchildren : t.children = Function.update s.children p ((s.children p).erase c)) :
    t.PidInv := by
  have hself : t.children p = (s.children p).erase c := by rw [hchildren, Function.update_self]
  have hother : ∀ q, q ≠ p → t.children q = s.children q := fun q hq => by
    rw [hchildren, Function.update_of_ne hq]
  have hcp := (h.mem p c hc).2
  -- `c` was the child of `p` only, and is no one's any more
  have hin : ∀ q d, d ∈ t.children q ↔ d ∈ s.children q ∧ d ≠ c := by
    intro q d
    by_cases hq : q = p
    · rw [hq, hself, (h.nodup p).mem_erase_iff, and_comm]
    · rw [hother q hq]
      refine (and_iff_left_of_imp fun hd => ?_).symm
      rintro rfl
      have hdq := (h.mem q d hd).2
      rw [hcp] at hdq
      exact hq (Option.some.inj hdq).symm
  have hpresent : ∀ d, t.Present d ↔ s.Present d ∧ d ≠ c := by
    intro d
    unfold Present
    rw [hnext, hparent, and_assoc]
    refine and_congr_right fun _ => ?_
    by_cases hd : d = c
    · subst hd
      refine iff_of_false ?_ fun hand => hand.2 rfl
      rintro (rfl | hnone | ⟨q, hq⟩)
      · exact h.root_notMem p hc
      · rw [hcp] at hnone
        cases hnone
      · exact ((hin q d).mp hq).2 rfl
    · rw [and_iff_left hd]
      refine or_congr_right (or_congr_right (exists_congr fun q => ?_))
      rw [hin, and_iff_left hd]
  have hsc : s.Present c := ⟨(h.mem p c hc).1, Or.inr (Or.inr ⟨p, hc⟩)⟩
  constructor
  case allocated => exact ha
  case empty =>
    intro q hq
    rw [hnext] at hq
    refine List.eq_nil_iff_forall_not_mem.mpr fun d hd => ?_
    rw [hin, h.empty q hq] at hd
    exact List.not_mem_nil hd.1
  case root => rw [hparent]; exact h.root
  case root_notMem => exact fun q hq => h.root_notMem q ((hin q _).mp hq).1
  case mem =>
    intro q d hd
    rw [hnext, hparent]
    exact h.mem q d ((hin q d).mp hd).1
  case nodup =>
    intro q
    by_cases hq : q = p
    · rw [hq, hself]
      exact (h.nodup p).erase c
    · rw [hother q hq]
      exact h.nodup q
  case root_lt => rw [hnext]; exact h.root_lt
  case valid => exact h.valid.congr (fun d hd => ((hpresent d).mp hd).1) hpid
  case taken =>
    intro n hn
    obtain ⟨hge, hlt⟩ := h.valid.range c hsc
    rw [hpids, hpid]
    show Function.update s.pids.pidMap (s.pid c).toNat false n = true ↔ _
    by_cases hnc : n = (s.pid c).toNat
    -- no one else has the pid that is released
    · subst hnc
      rw [Function.update_self]
      refine iff_of_false Bool.false_ne_true ?_
      rintro ⟨d, hd, heq⟩
      rw [Int.toNat_of_nonneg hge] at heq
      exact ((hpresent d).mp hd).2 (h.valid.inj d c ((hpresent d).mp hd).1 hsc heq)
    · rw [Function.update_of_ne hnc, h.taken n hn]
      refine exists_congr fun d => and_congr_left fun heq => ?_
      rw [hpresent]
      refine (and_iff_left_of_imp fun _ => ?_).symm
      rintro rfl
      exact hnc (by rw [heq]; rfl)

theorem step (h : s.PidInv) (hl : s.SparePid l) (hs : s.step l = some t) : t.PidInv := by
  obtain ⟨hshape, ha⟩ := shape_step h.allocated hs
  cases hshape with
  | create hcreate ht =>
    subst hcreate
    exact ht ▸ h.create hl
  | link p c _ hp hc hnone hnext hpids hpid hparent hchildren =>
    exact h.link ha hp hc hnone hnext hpids hpid hparent hchildren
  | move p _ hnext hpids hpid hparent hchildren =>
    exact h.move ha hnext hpids hpid hparent hchildren
  | reap p c _ hc hnext hpids hpid hparent hchildren =>
    exact h.reap ha hc hnext hpids hpid hparent hchildren
  | other _ hnext hpids hpid hparent hchildren =>
    refine h.keep ha hnext hpids hpid ?_ ?_ ?_ ?_ ?_ ?_
    · intro c
      unfold Present
      rw [hnext, hparent, hchildren]
    · exact hchildren ▸ h.empty
    · exact hparent ▸ h.root
    · exact hchildren ▸ h.root_notMem
    · rw [hchildren, hparent]
      exact h.mem
    · exact hchildren ▸ h.nodup

end PidInv

theorem pidInv_of_reachable (h : procSystem.Reachable SparePid s) : s.PidInv := by
  refine h.induction (I := PidInv) ?_ fun _ _ _ hinv hl hs => hinv.step hl hs
  rintro _ rfl
  exact pidInv_boot

end ProcTree

/-- **Pids.**  In a run in which no process is created when all pids are taken, the processes
that are there have pids of their own, `release_pid` in `wait` meets its assertion, and a new
process has a pid that no other one has.  A process that is created when all pids are taken
has the pid -1. -/
theorem pids_valid_iff (s : ProcTree) (h : procSystem.Reachable ProcTree.SparePid s) :
    s.ValidPids ∧
    (∀ p c, (s.children p).find? (fun c => decide (s.life c = .zombie)) = some c →
      0 ≤ s.pid c ∧ s.pid c < maxPid) ∧
    ∀ l t, s.step l = some t → (t.ValidPids ↔ s.SparePid l) ∧
      (l = .create → s.SparePid l → ∀ c, s.Present c → t.pid s.next ≠ s.pid c) ∧
      (l = .create → ¬s.SparePid l → t.pid s.next = -1) := by
  have hinv := ProcTree.pidInv_of_reachable h
  refine ⟨hinv.valid, fun p c hc => ?_, fun l t hs => ⟨⟨fun ht => ?_, fun hl => ?_⟩, ?_, ?_⟩⟩
  · -- `wait` takes the first zombie among the children
    have hmem := List.mem_of_find?_eq_some hc
    exact hinv.valid.range c ⟨(hinv.mem p c hmem).1, Or.inr (Or.inr ⟨p, hmem⟩)⟩
  · by_contra hl
    cases l with
    | create =>
      obtain rfl := Option.some.inj hs
      exact (hinv.not_valid_create hl).2 ht
    | _ => exact hl trivial
  · exact (hinv.step hl hs).valid
  · rintro rfl hl c hc heq
    have ht := (hinv.step hl hs).valid
    obtain rfl := Option.some.inj hs
    have hold : s.createProc.pid c = s.pid c := Function.update_of_ne (Nat.ne_of_lt hc.1) _ _
    have hsame := ht.inj s.next c ((hinv.present_create).mpr (Or.inr rfl))
      ((hinv.present_create).mpr (Or.inl hc)) (heq.trans hold.symm)
    exact absurd hsame (Nat.ne_of_gt hc.1)
  · rintro rfl hl
    obtain rfl := Option.some.inj hs
    exact (hinv.not_valid_create hl).1

namespace ProcTree

/-- As long as pids are left, they are given out in order. -/
theorem getPid_next {m : PidMap} {n : ℕ} (hn : n + 1 < maxPid) (hlast : m.lastPid = n)
    (hfree : m.pidMap (n + 1) = false) :
    m.getPid = some (n + 1, ⟨Function.update m.pidMap (n + 1) true, (n + 1 : ℕ)⟩) := by
  have hoffset : ((m.lastPid + 1) % maxPid).toNat = n + 1 := by
    rw [hlast, Int.emod_eq_of_lt (by omega) (by exact_mod_cast hn)]
    rfl
  obtain ⟨k, hk⟩ : ∃ k, maxPid - (n + 1) = k + 1 := ⟨maxPid - (n + 1) - 1, by omega⟩
  unfold PidMap.getPid
  simp only [hoffset]
  rw [hk, List.range'_succ, List.cons_append, List.find?_cons_of_pos (by simpa using hfree)]
  rfl

/-- Some calls of `create_proc`, in a state in which the pids after the last one are free. -/
theorem created (hs : procSystem.Reachable SparePid s) {m n : ℕ} (hlast : s.pids.lastPid = m)
    (hfree : ∀ k, m < k → s.pids.pidMap k = false) (hmn : m ≤ n) (hn : n < maxPid) :
    ∃ t, procSystem.Reachable SparePid t ∧ t.pids.lastPid = n ∧
      (∀ k, t.pids.pidMap k = (decide (m < k ∧ k ≤ n) || s.pids.pidMap k)) ∧ s.next ≤ t.next ∧
      ∀ c < s.next, (t.Present c ↔ s.Present c) ∧ t.pid c = s.pid c := by
  induction n, hmn using Nat.le_induction with
  | base =>
    refine ⟨s, hs, hlast, fun k => ?_, le_rfl, fun c _ => ⟨Iff.rfl, rfl⟩⟩
    rw [decide_eq_false (by omega), Bool.false_or]
  | succ n hmn ih =>
    obtain ⟨t, ht, htlast, hmap, hnext, hold⟩ := ih (Nat.lt_of_succ_lt hn)
    have hspare : t.pids.pidMap (n + 1) = false := by
      rw [hmap, hfree _ (by omega), decide_eq_false (by omega), Bool.false_or]
    have hget := getPid_next hn htlast hspare
    have hpids : t.createProc.pids = ⟨Function.update t.pids.pidMap (n + 1) true, (n + 1 : ℕ)⟩ :=
      createProc_pids hget
    refine ⟨t.createProc, ht.step (l := .create) ⟨n + 1, hn, hspare⟩ rfl, ?_, fun k => ?_,
      Nat.le_succ_of_le hnext, fun c hc => ?_⟩
    · rw [hpids]
    · rw [hpids]
      show Function.update t.pids.pidMap (n + 1) true k = _
      by_cases hk : k = n + 1
      · rw [hk, Function.update_self, decide_eq_true (by omega), Bool.true_or]
      · rw [Function.update_of_ne hk, hmap]
        congr 2
        simp only [eq_iff_iff]
        omega
    · have hne : c ≠ t.next := by omega
      refine ⟨?_, (Function.update_of_ne hne _ _).trans (hold c hc).2⟩
      rw [(pidInv_of_reachable ht).present_create, or_iff_left hne]
      exact (hold c hc).1

/-- Process 1 is created, runs and exits, and `root_proc` reaps it. -/
theorem reaped_first : ∃ s, procSystem.Reachable SparePid s ∧ s.pids.lastPid = (1 : ℕ) ∧
    (∀ k, s.pids.pidMap k = decide (k = 0)) ∧ s.next = 2 ∧ s.pid 1 = 1 ∧ ¬s.Present 1 := by
  have hboot : procSystem.Reachable SparePid .boot := ⟨_, rfl, .refl _⟩
  have hcreate := hboot.step (l := .create) ⟨1, by decide, rfl⟩ rfl
  have hstart := (hcreate.step (l := .start 0 1) trivial rfl).step (l := .activate 0) trivial rfl
  have hexit := (hstart.step (l := .exit 1 7) trivial rfl).step (l := .schedZombie 1) trivial rfl
  have hwait := (hexit.step (l := .wait 0) trivial rfl).step (l := .waitSem 0) trivial rfl
  refine ⟨_, hwait.step (l := .scan 0) trivial rfl, rfl, fun k => ?_, rfl, rfl, ?_⟩
  · show Function.update (Function.update (fun n => decide (n = 0)) 1 true) 1 false k = _
    by_cases hk : k = 1
    · rw [hk, Function.update_self]
      rfl
    · rw [Function.update_of_ne hk, Function.update_of_ne hk]
  · rintro ⟨-, hroot | hparent | ⟨p, hp⟩⟩
    · cases hroot
    · cases hparent
    · match p, hp with
      | 0, hp => cases hp
      | 1, hp => cases hp
      | _ + 2, hp => cases hp

end ProcTree

/-- Process 1 has been reaped, and the other pids have been given out: the next process has its
pid, and no process that is there has it. -/
theorem pids_valid_reused : ∃ s : ProcTree, s.pid 1 = 1 ∧ ¬s.Present 1 ∧
    s.createProc.pid s.next = 1 ∧ s.createProc.ValidPids ∧
    ∀ c, s.Present c → s.createProc.pid s.next ≠ s.pid c := by
  obtain ⟨r, hr, hlast, hmap, hnext, hpid, hgone⟩ := ProcTree.reaped_first
  have hfree : ∀ k, 1 < k → r.pids.pidMap k = false := fun k hk => by
    rw [hmap, decide_eq_false (by omega)]
  obtain ⟨s, hs, hlast', hmap', -, hold⟩ :=
    ProcTree.created hr (n := 2047) hlast hfree (by decide) (by decide)
  obtain ⟨hpresent, hpid'⟩ := hold 1 (by omega)
  have hone : s.pids.pidMap 1 = false := by
    rw [hmap', hmap]
    rfl
  have hspare : s.SparePid .create := ⟨1, by decide, hone⟩
  obtain ⟨-, -, hstep⟩ := pids_valid_iff s hs
  obtain ⟨hvalid, hfresh, -⟩ := hstep .create _ rfl
  refine ⟨s, hpid'.trans hpid, fun h => hgone (hpresent.mp h), ?_, hvalid.mpr hspare,
    hfresh rfl hspare⟩
  have hget : s.pids.getPid = some (1, ⟨Function.update s.pids.pidMap 1 true, (1 : ℕ)⟩) := by
    -- the search starts at 0 again, which `root_proc` has
    have hzero : s.pids.pidMap 0 = true := by
      rw [hmap', hmap]
      rfl
    have hoffset : ((s.pids.lastPid + 1) % maxPid).toNat = 0 := by
      rw [hlast']
      rfl
    unfold PidMap.getPid
    simp only [hoffset]
    rw [show maxPid - 0 = 2046 + 1 + 1 from rfl, List.range'_succ, List.range'_succ,
      List.cons_append, List.cons_append, List.find?_cons_of_neg (by simp [hzero]),
      List.find?_cons_of_pos (by simp [hone])]
    rfl
  show Function.update s.pid s.next _ s.next = _
  rw [Function.update_self, hget]
  rfl

/-- **A process without a valid pid**: 2048 calls of `create_proc` after `root_proc` has taken
the first pid, and the last one has -1 and is there all the same. -/
theorem pids_exhausted : ∃ (s : ProcTree) (c : ℕ), procSystem.Reachable (fun _ _ => True) s ∧
    s.Present c ∧ s.pid c = -1 ∧ ¬s.ValidPids := by
  obtain ⟨s, hs, -, hmap, -⟩ := ProcTree.created (s := .boot) (m := 0) (n := 2047)
    ⟨_, rfl, .refl _⟩ rfl (fun k hk => decide_eq_false (by omega)) (by decide) (by decide)
  have hinv := ProcTree.pidInv_of_reachable hs
  have hspare : ¬s.SparePid .create := by
    rintro ⟨n, hn, hfree⟩
    rw [hmap, Bool.or_eq_false_iff, decide_eq_false_iff_not] at hfree
    have hne : n ≠ 0 := fun h0 => by simp [h0, ProcTree.boot] at hfree
    have hlt : n < 2048 := hn
    omega
  obtain ⟨hpid, hnot⟩ := hinv.not_valid_create hspare
  exact ⟨s.createProc, s.next, (hs.mono fun _ _ _ => trivial).step (l := .create) trivial rfl,
    hinv.present_create.mpr (Or.inr rfl), hpid, hnot⟩

end OsLab
