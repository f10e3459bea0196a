/-
The search of `kill` (`dfs_tree` and `kill` of `kernel/proc.c`), over the rings of the process
tree.

The loops over `children` leave the rings alone, and a process that is found ends all of them.
What the search does to `treelock` is in `Treelock`.

* `FiniteTree` — a process and all that are below it lie in rings of `ptnode`s;
* `dfsTree_spec` — the search comes to every process below the one it starts from, and ends;
* `kill_searches` — `kill` finds the process with the pid, if the pid is one of `[0, MAX_PID)`;
* `kill_ignores` — a process whose pid is not in that range is not found.
-/
import OsLab.Kernel.ProcRings
import OsLab.Kernel.Sched

namespace OsLab

/-- What `kill` looks at. -/
structure SearchState where
  links : Links TreeNode
  pid : ℕ → ℤ
  killed : ℕ → Bool
  sched : SchedState

namespace SearchState

/-- `child->killed = 1; alert_proc(child)` -/
def mark (s : SearchState) (child : ℕ) : SearchState :=
  { s with
    killed := Function.update s.killed child true
    sched := (s.sched.activate (.task child) true).2 }

/-- The loop of `dfs_tree(fa, pid)` from `p` on: the process that is found, if any.  It returns
`none` when the fuel runs out, or when a node is no `ptnode`. -/
def visit (pid : ℤ) : ℕ → SearchState → ℕ → Option TreeNode → Option (Option ℕ × SearchState)
  | _, s, _, none => some (none, s)
  | 0, _, _, some _ => none
  | fuel + 1, s, fa, some p =>
    if p = .children fa then visit pid fuel s fa none
    else
      match p.containerOf with
      | none => none
      | some child =>
        if s.pid child = pid ∧ s.sched.state (.task child) ≠ .unused then
          some (some child, s.mark child)
        else
          match visit pid fuel s child (some (s.links.next (.children child))) with
          | none => none
          | some (some res, s) => some (some res, s)
          | some (none, s) => visit pid fuel s fa (some (s.links.next p))

/-- `dfs_tree` -/
def dfsTree (fuel : ℕ) (s : SearchState) (fa : ℕ) (pid : ℤ) : Option (Option ℕ × SearchState) :=
  visit pid fuel s fa (some (s.links.next (.children fa)))

/-- `kill` -/
def kill (fuel : ℕ) (s : SearchState) (pid : ℤ) : Option (ℤ × SearchState) :=
  -- `check_pid`
  if ¬(0 ≤ pid ∧ pid < maxPid) then some (-1, s)
  else
    match s.dfsTree fuel rootProc pid with
    | none => none
    | some (none, s) => some (-1, s)
    | some (some _, s) => some (0, s)

/-- The process is the one that `dfs_tree` looks for. -/
def Matches (s : SearchState) (pid : ℤ) (c : ℕ) : Prop :=
  s.pid c = pid ∧ s.sched.state (.task c) ≠ .unused

end SearchState

/-- The second process is a child of the first one, or below one. -/
inductive Below (kids : ℕ → List ℕ) : ℕ → ℕ → Prop
  | child {p c : ℕ} (hc : c ∈ kids p) : Below kids p c
  | under {p c d : ℕ} (hc : c ∈ kids p) (hd : Below kids c d) : Below kids p d

/-- The rings of a process and of all that are below it. -/
inductive FiniteTree (L : Links TreeNode) (kids : ℕ → List ℕ) : ℕ → Prop
  | node {p : ℕ} (ring : L.Ring (.children p) ((kids p).map .ptnode))
      (sub : ∀ c ∈ kids p, FiniteTree L kids c) : FiniteTree L kids p

theorem below_iff {kids : ℕ → List ℕ} {p d : ℕ} :
    Below kids p d ↔ ∃ c ∈ kids p, d = c ∨ Below kids c d := by
  constructor
  · intro h
    cases h with
    | child hc => exact ⟨d, hc, Or.inl rfl⟩
    | under hc hd => exact ⟨_, hc, Or.inr hd⟩
  · rintro ⟨c, hc, rfl | hd⟩
    · exact .child hc
    · exact .under hc hd

namespace SearchState

variable {s : SearchState} {kids : ℕ → List ℕ} {pid : ℤ} {fa c : ℕ} {cs : List ℕ}

/-- What the search among some processes comes to: nothing, or one of them. -/
def Outcome (s : SearchState) (pid : ℤ) (P : ℕ → Prop) (r : Option ℕ × SearchState) : Prop :=
  (r = (none, s) ∧ ∀ d, P d → ¬s.Matches pid d) ∨
    ∃ d, P d ∧ s.Matches pid d ∧ r = (some d, s.mark d)

/-- The loop at the process it looks for. -/
theorem visit_found (hmatch : s.Matches pid c) (n : ℕ) :
    visit pid (n + 1) s fa (some (.ptnode c)) = some (some c, s.mark c) := by
  rw [visit, if_neg (by simp)]
  exact if_pos hmatch

/-- The loop at a process that it goes past. -/
theorem visit_past {n : ℕ} {t : SearchState} (hmatch : ¬s.Matches pid c)
    (hbelow : s.dfsTree n c pid = some (none, t)) :
    visit pid (n + 1) s fa (some (.ptnode c)) =
      visit pid n t fa (some (t.links.next (.ptnode c))) := by
  rw [dfsTree] at hbelow
  rw [Matches] at hmatch
  rw [visit, if_neg (by simp)]
  simp only [TreeNode.containerOf]
  rw [if_neg hmatch, hbelow]

/-- The loop at a process above the one it looks for. -/
theorem visit_below {n d : ℕ} {t : SearchState} (hmatch : ¬s.Matches pid c)
    (hbelow : s.dfsTree n c pid = some (some d, t)) :
    visit pid (n + 1) s fa (some (.ptnode c)) = some (some d, t) := by
  rw [dfsTree] at hbelow
  rw [Matches] at hmatch
  rw [visit, if_neg (by simp)]
  simp only [TreeNode.containerOf]
  rw [if_neg hmatch, hbelow]

/-- The loop over the children that are left, when the searches below them end. -/
theorem visit_loop {v : TreeNode} {l : List TreeNode}
    (hsub : ∀ c ∈ cs, ∃ N r, s.Outcome pid (Below kids c) r ∧
      ∀ fuel, N ≤ fuel → s.dfsTree fuel c pid = some r)
    (hv : cs.map TreeNode.ptnode ++ [.children fa] = v :: l)
    (hchain : (v :: l).IsChain s.links.Linked) :
    ∃ N r, s.Outcome pid (fun d => ∃ c ∈ cs, d = c ∨ Below kids c d) r ∧
      ∀ fuel, N ≤ fuel → visit pid fuel s fa (some v) = some r := by
  induction cs generalizing v l with
  | nil =>
    have hvl : v = .children fa := by simpa using (congrArg List.head? hv).symm
    subst hvl
    refine ⟨1, (none, s), Or.inl ⟨rfl, by simp⟩, fun fuel hfuel => ?_⟩
    obtain ⟨n, rfl⟩ := Nat.exists_eq_add_of_le' hfuel
    rw [visit, if_pos rfl, visit]
  | cons c cs ih =>
    obtain ⟨w, l', hw⟩ : ∃ w l', cs.map TreeNode.ptnode ++ [.children fa] = w :: l' :=
      List.exists_cons_of_ne_nil (by simp)
    rw [List.map_cons, List.cons_append, hw] at hv
    obtain ⟨rfl, rfl⟩ := List.cons.inj hv
    obtain ⟨⟨hnext, -⟩, hrest⟩ := List.isChain_cons_cons.mp hchain
    by_cases hmatch : s.Matches pid c
    · -- the process is found
      refine ⟨1, (some c, s.mark c), Or.inr ⟨c, ⟨c, List.mem_cons_self, Or.inl rfl⟩, hmatch, rfl⟩,
        fun fuel hfuel => ?_⟩
      obtain ⟨n, rfl⟩ := Nat.exists_eq_add_of_le' hfuel
      exact visit_found hmatch n
    · obtain ⟨N, r, hr, hrun⟩ := hsub c List.mem_cons_self
      obtain ⟨N', r', hr', hrun'⟩ :=
        ih (fun d hd => hsub d (List.mem_cons_of_mem c hd)) hw hrest
      rcases hr with ⟨rfl, hnone⟩ | ⟨d, hd, hfound, rfl⟩
      · -- nothing below it: the loop goes on with the next one
        refine ⟨max N N' + 1, r', ?_, fun fuel hfuel => ?_⟩
        · rcases hr' with ⟨rfl, hnone'⟩ | ⟨d, ⟨e, he, hd⟩, hfound, rfl⟩
          · refine Or.inl ⟨rfl, ?_⟩
            rintro d ⟨e, he, hd⟩
            rcases List.mem_cons.mp he with rfl | he
            · rcases hd with rfl | hd
              · exact hmatch
              · exact hnone d hd
            · exact hnone' d ⟨e, he, hd⟩
          · exact Or.inr ⟨d, ⟨e, List.mem_cons_of_mem c he, hd⟩, hfound, rfl⟩
        · obtain ⟨n, rfl⟩ := Nat.exists_eq_add_of_le' hfuel
          rw [← Nat.add_assoc, visit_past hmatch (hrun _ (by omega)), hnext]
          exact hrun' _ (by omega)
      · -- the process is found below it
        refine ⟨N + 1, (some d, s.mark d),
          Or.inr ⟨d, ⟨c, List.mem_cons_self, Or.inr hd⟩, hfound, rfl⟩, fun fuel hfuel => ?_⟩
        obtain ⟨n, rfl⟩ := Nat.exists_eq_add_of_le' hfuel
        rw [← Nat.add_assoc]
        exact visit_below hmatch (hrun _ (by omega))

/-- The search ends, and has come to every process below the one it starts from. -/
theorem dfsTree_spec (h : FiniteTree s.links kids fa) (pid : ℤ) :
    ∃ N r, s.Outcome pid (Below kids fa) r ∧
      ∀ fuel, N ≤ fuel → s.dfsTree fuel fa pid = some r := by
  induction h with
  | @node p ring _ ih =>
    obtain ⟨w, l, hw⟩ : ∃ w l, (kids p).map TreeNode.ptnode ++ [.children p] = w :: l :=
      List.exists_cons_of_ne_nil (by simp)
    have hchain := ring.chain
    rw [hw] at hchain
    obtain ⟨⟨hnext, -⟩, hrest⟩ := List.isChain_cons_cons.mp hchain
    obtain ⟨N, r, hr, hrun⟩ := visit_loop ih hw hrest
    refine ⟨N, r, ?_, fun fuel hfuel => ?_⟩
    · simpa only [← below_iff] using hr
    · rw [dfsTree, hnext]
      exact hrun fuel hfuel

/-- What `kill` has done to `c`. -/
structure Killed (s : SearchState) (c : ℕ) (t : SearchState) : Prop where
  links : t.links = s.links
  pid : t.pid = s.pid
  killed : t.killed = Function.update s.killed c true
  others : ∀ p, p ≠ .task c → t.sched.state p = s.sched.state p
  cpus : t.sched.thisproc = s.sched.thisproc ∧ t.sched.cnt = s.sched.cnt
  woken : s.sched.state (.task c) = .sleeping →
    t.sched.state (.task c) = .runnable ∧ t.sched.queue = .task c :: s.sched.queue
  asleep : s.sched.state (.task c) ≠ .sleeping → t.sched = s.sched

/-- The call of `alert_proc` wakes a process only if it sleeps and can be alerted. -/
theorem mark_killed (hused : s.sched.state (.task c) ≠ .unused) : Killed s c (s.mark c) := by
  by_cases hsleep : s.sched.state (.task c) = .sleeping
  · -- it is put in front of the queue
    have hsched : (s.mark c).sched = s.sched.enqueue (.task c) := by
      simp [mark, SchedState.activate, hsleep]
    constructor
    case woken =>
      intro _
      rw [hsched]
      exact ⟨Function.update_self .., rfl⟩
    case asleep => exact fun h => absurd hsleep h
    case others =>
      intro p hp
      rw [hsched]
      exact Function.update_of_ne hp ..
    case cpus =>
      rw [hsched]
      exact ⟨rfl, rfl⟩
    all_goals rfl
  · -- it runs, or waits in a sleep that no alert ends, or is a zombie
    have hsched : (s.mark c).sched = s.sched := by
      cases hstate : s.sched.state (.task c) <;>
        simp_all [mark, SchedState.activate]
    constructor
    case woken => exact fun h => absurd h hsleep
    case asleep => exact fun _ => hsched
    case others =>
      intro p _
      rw [hsched]
    case cpus =>
      rw [hsched]
      exact ⟨rfl, rfl⟩
    all_goals rfl

end SearchState

open SearchState

/-- `kill` ends.  It returns 0 if the pid is one of `[0, MAX_PID)` and that of a process below
`root_proc` that is not `UNUSED`, which then is the only one it changes, and -1 otherwise. -/
theorem kill_searches {s : SearchState} {kids : ℕ → List ℕ}
    (htree : FiniteTree s.links kids rootProc)
    (hpids : ∀ c d, Below kids rootProc c → Below kids rootProc d → s.pid c = s.pid d → c = d)
    (pid : ℤ) :
    ∃ N r t, (∀ fuel, N ≤ fuel → s.kill fuel pid = some (r, t)) ∧
      ((0 ≤ pid ∧ pid < maxPid ∧ ∃ c, Below kids rootProc c ∧ s.Matches pid c) → r = 0) ∧
      (¬(0 ≤ pid ∧ pid < maxPid ∧ ∃ c, Below kids rootProc c ∧ s.Matches pid c) → r = -1) ∧
      (r = 0 → ∃ c, Below kids rootProc c ∧ s.Matches pid c ∧ Killed s c t ∧
        ∀ d, Below kids rootProc d → s.pid d = pid → d = c) ∧
      (r = -1 → t = s) := by
  by_cases hrange : 0 ≤ pid ∧ pid < maxPid
  · -- the search decides
    obtain ⟨N, r, hr, hrun⟩ := dfsTree_spec htree pid
    rcases hr with ⟨rfl, hnone⟩ | ⟨c, hc, hmatch, rfl⟩
    · refine ⟨N, -1, s, fun fuel hfuel => ?_, ?_, fun _ => rfl, by simp, fun _ => rfl⟩
      · rw [kill, if_neg (not_not.mpr hrange), hrun fuel hfuel]
      · rintro ⟨-, -, c, hc, hmatch⟩
        exact absurd hmatch (hnone c hc)
    · refine ⟨N, 0, s.mark c, fun fuel hfuel => ?_, fun _ => rfl, ?_, fun _ => ?_, by simp⟩
      · rw [kill, if_neg (not_not.mpr hrange), hrun fuel hfuel]
      · exact fun h => absurd ⟨hrange.1, hrange.2, c, hc, hmatch⟩ h
      · refine ⟨c, hc, hmatch, mark_killed hmatch.2, fun d hd hpid => ?_⟩
        exact hpids d c hd hc (hpid.trans hmatch.1.symm)
  · -- `check_pid` fails
    refine ⟨0, -1, s, fun fuel _ => ?_, ?_, fun _ => rfl, by simp, fun _ => rfl⟩
    · rw [kill, if_pos hrange]
    · exact fun h => absurd ⟨h.1, h.2.1⟩ hrange

/-- Process 2 sleeps, and is a child of process 1, which has got no pid, and that one is a child
of `root_proc`. -/
def searched : SearchState where
  links :=
    let swap : TreeNode → TreeNode
      | .children 0 => .ptnode 1
      | .ptnode 1 => .children 0
      | .children 1 => .ptnode 2
      | .ptnode 2 => .children 1
      | n => n
    ⟨swap, swap⟩
  pid p := [0, -1, 5].getD p 7
  killed _ := false
  sched :=
    { state := fun _ => .sleeping
      queue := []
      thisproc := .idle
      cnt := fun _ => 0 }

/-- The children in `searched`. -/
def searchedKids : ℕ → List ℕ
  | 0 => [1]
  | 1 => [2]
  | _ => []

theorem searched_tree : FiniteTree searched.links searchedKids rootProc := by
  have hleaf : FiniteTree searched.links searchedKids 2 := by
    refine .node ⟨by simp [searchedKids], ?_⟩ (by simp [searchedKids])
    simp [searchedKids, Links.Linked, searched]
  have hmiddle : FiniteTree searched.links searchedKids 1 := by
    refine .node ⟨by simp [searchedKids], ?_⟩ (by simp [searchedKids, hleaf])
    simp [searchedKids, Links.Linked, searched]
  refine .node ⟨by simp [searchedKids, rootProc], ?_⟩ (by simp [searchedKids, rootProc, hmiddle])
  simp [searchedKids, rootProc, Links.Linked, searched]

theorem searched_below {d : ℕ} (h : Below searchedKids rootProc d) : d = 1 ∨ d = 2 := by
  obtain ⟨c, hc, h⟩ := below_iff.mp h
  obtain rfl : c = 1 := by simpa [searchedKids, rootProc] using hc
  rcases h with rfl | h
  · exact Or.inl rfl
  · obtain ⟨c, hc, h⟩ := below_iff.mp h
    obtain rfl : c = 2 := by simpa [searchedKids] using hc
    rcases h with rfl | h
    · exact Or.inr rfl
    · obtain ⟨c, hc, -⟩ := below_iff.mp h
      simp [searchedKids] at hc

theorem searched_pids (c d : ℕ) (hc : Below searchedKids rootProc c)
    (hd : Below searchedKids rootProc d) (h : searched.pid c = searched.pid d) : c = d := by
  rcases searched_below hc with rfl | rfl <;> rcases searched_below hd with rfl | rfl <;>
    simp_all [searched]

/-- The search goes on below process 1 and wakes process 2. -/
theorem kill_searches_below : ∃ N t, (∀ fuel, N ≤ fuel → searched.kill fuel 5 = some (0, t)) ∧
    t.killed 2 = true ∧ t.sched.state (.task 2) = .runnable := by
  have hbelow : Below searchedKids rootProc 2 :=
    .under (c := 1) (by simp [searchedKids, rootProc]) (.child (by simp [searchedKids]))
  have hmatch : searched.Matches 5 2 := ⟨rfl, by simp [searched]⟩
  obtain ⟨N, r, t, hrun, hfound, -, hkilled, -⟩ := kill_searches searched_tree searched_pids 5
  obtain rfl := hfound ⟨by simp, by simp [maxPid], 2, hbelow, hmatch⟩
  obtain ⟨c, -, -, hc, honly⟩ := hkilled rfl
  obtain rfl := honly 2 hbelow rfl
  refine ⟨N, t, hrun, ?_, (hc.woken rfl).1⟩
  rw [hc.killed, Function.update_self]

/-- A process without a pid is not found, although it is there. -/
theorem kill_ignores : FiniteTree searched.links searchedKids rootProc ∧
    (∀ c d, Below searchedKids rootProc c → Below searchedKids rootProc d →
      searched.pid c = searched.pid d → c = d) ∧
    (∃ c, Below searchedKids rootProc c ∧ searched.Matches (-1) c) ∧
    ∀ fuel, searched.kill fuel (-1) = some (-1, searched) := by
  refine ⟨searched_tree, searched_pids, ⟨1, .child ?_, rfl, ?_⟩, fun fuel => ?_⟩
  · simp [searchedKids, rootProc]
  · simp [searched]
  · rw [kill, if_pos (by simp)]

end OsLab
