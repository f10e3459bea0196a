/-
The process tree as it lies in memory: `parent` pointers, and a ring of `ptnode`s through
`children` for each process (`kernel/proc.c` over `common/list.c`).

A step is one section under `treelock`, or one under the scheduler lock outside of it.
Processes are numbered in the order in which they are allocated, and `root_proc` is the first.

* `ProcRings.Forest` — the rings are those of the lists `kids`, which agree with `parent`, and
  every process that has been linked leads to `root_proc`;
* `Forest.step` — every step keeps it;
* `procRings_tree` — so the processes form a tree in all runs, and `exit` moves the children of
  its process, and these only, to `root_proc`.
-/
import OsLab.Kernel.ProcTree
import OsLab.Lib.RingList
import Mathlib.Data.List.Perm.Subperm

namespace OsLab

/-- The list nodes in a `struct proc`. -/
inductive TreeNode
  | children (p : ℕ)
  | ptnode (p : ℕ)
  deriving DecidableEq, Repr

/-- `container_of(p, struct proc, ptnode)`; there is none when the node is no `ptnode`. -/
def TreeNode.containerOf : TreeNode → Option ℕ
  | .children _ => none
  | .ptnode c => some c

/-- The processes. -/
structure ProcRings where
  /-- how many have been allocated -/
  next : ℕ
  links : Links TreeNode
  parent : ℕ → Option ℕ
  life : ℕ → Life
  /-- `start_proc` has been called on the process -/
  started : ℕ → Bool
  /-- the process has come through the section of `exit` -/
  exited : ℕ → Bool
  /-- `wait` has freed the process -/
  freed : ℕ → Bool

inductive RingCall
  /-- `create_proc` -/
  | create
  /-- `set_parent_to_this(c)` by `p` -/
  | setParent (p c : ℕ)
  /-- `start_proc(c)` by `p`, up to the release of `treelock` -/
  | start (p c : ℕ)
  /-- its `activate_proc(c)` -/
  | activate (c : ℕ)
  /-- `exit` by `p`, up to the release of `treelock` -/
  | exit (p : ℕ)
  /-- its `_sched(ZOMBIE)` -/
  | schedZombie (p : ℕ)
  /-- the last section of `wait` by `p` -/
  | wait (p : ℕ)

namespace ProcRings

/-- The process runs, and has not come to the end of `exit`. -/
def Runs (s : ProcRings) (p : ℕ) : Prop :=
  p < s.next ∧ s.freed p = false ∧ s.life p = .active ∧ s.exited p = false

instance (s : ProcRings) (p : ℕ) : Decidable (s.Runs p) :=
  inferInstanceAs (Decidable (_ ∧ _ ∧ _ ∧ _))

/-- The process has been allocated and not freed. -/
def Alive (s : ProcRings) (c : ℕ) : Prop := c < s.next ∧ s.freed c = false

instance (s : ProcRings) (c : ℕ) : Decidable (s.Alive c) := inferInstanceAs (Decidable (_ ∧ _))

/-- `init_proc` -/
def createProc (s : ProcRings) : ProcRings :=
  let n := s.next
  { next := n + 1
    links := (s.links.init (.children n)).init (.ptnode n)
    parent := Function.update s.parent n none
    life := Function.update s.life n .unused
    started := Function.update s.started n false
    exited := Function.update s.exited n false
    freed := Function.update s.freed n false }

/-- `c->parent` is set, and `c` is inserted into the ring of `p`. -/
def link (s : ProcRings) (p c : ℕ) : ProcRings :=
  { s with
    parent := Function.update s.parent c (some p)
    links := s.links.insert (.children p) (.ptnode c) }

/-- The candidates of a loop over `p->children`. -/
def candidates (s : ProcRings) (p : ℕ) : Option (List ℕ) :=
  (s.links.walk (.children p) (s.next + 1) (s.links.next (.children p))).bind fun nodes =>
    (nodes.filter fun v => v ≠ .children p).mapM TreeNode.containerOf

/-- The loop of `exit`. -/
def adopt (parent : ℕ → Option ℕ) : List ℕ → ℕ → Option ℕ
  | [] => parent
  | c :: cs => adopt (Function.update parent c (some rootProc)) cs

/-- The section of `exit` under `treelock`. -/
def exit (s : ProcRings) (p : ℕ) : Option ProcRings :=
  let s := { s with exited := Function.update s.exited p true }
  if s.links.next (.children p) = .children p then some s
  else (s.candidates p).map fun cs =>
    let r := s.links.detach (.children p)
    { s with
      parent := adopt s.parent cs
      links := match r.1 with
        | none => r.2
        | some children => r.2.merge (.children rootProc) children }

/-- The last section of `wait`; `none` when it comes to `PANIC()`. -/
def waitScan (s : ProcRings) (p : ℕ) : Option ProcRings :=
  (s.candidates p).bind fun cs =>
    (cs.find? fun c => decide (s.life c = .zombie)).map fun c => { s with
      links := (s.links.detach (.ptnode c)).2
      freed := Function.update s.freed c true }

def step (s : ProcRings) : RingCall → Option ProcRings
  | .create => some s.createProc
  | .setParent p c =>
    if s.Runs p ∧ s.Alive c ∧ s.parent c = none then some (s.link p c) else none
  | .start p c =>
    if s.Runs p ∧ s.Alive c then
      let s := if s.parent c = none then s.link rootProc c else s
      some { s with started := Function.update s.started c true }
    else none
  | .activate c =>
    if s.Alive c ∧ s.started c ∧ s.life c = .unused then
      some { s with life := Function.update s.life c .active }
    else none
  | .exit p => if s.Runs p then s.exit p else none
  | .schedZombie p =>
    if s.life p = .active ∧ s.exited p then
      some { s with life := Function.update s.life p .zombie }
    else none
  | .wait p => if s.Runs p then s.waitScan p else none

/-- Following `parent` ends in `root_proc`. -/
inductive ToRoot (parent : ℕ → Option ℕ) : ℕ → Prop
  | root : ToRoot parent rootProc
  | step {c p : ℕ} (hc : parent c = some p) (hp : ToRoot parent p) : ToRoot parent c

/-- The rings are those of `kids`, and the processes form a tree. -/
structure Forest (s : ProcRings) (kids : ℕ → List ℕ) : Prop where
  ring : ∀ p, s.Alive p → s.links.Ring (.children p) ((kids p).map .ptnode)
  mem : ∀ p c, c ∈ kids p ↔ s.Alive c ∧ c ≠ rootProc ∧ s.parent c = some p
  /-- who has children has not exited -/
  home : ∀ p, kids p ≠ [] → s.Alive p ∧ (p = rootProc ∨ s.life p = .active ∧ s.exited p = false)
  root : s.Alive rootProc ∧ s.parent rootProc = some rootProc
  linked : ∀ c, s.Alive c → s.started c = true → s.parent c ≠ none
  started : ∀ c, s.Alive c → s.life c ≠ .unused → s.started c = true
  toRoot : ∀ c, s.Alive c → s.parent c ≠ none → ToRoot s.parent c

end ProcRings

/-- After `define_init(root_proc)`. -/
def ringSystem : System ProcRings RingCall where
  init s := s.next = 1 ∧ s.parent rootProc = some rootProc ∧ s.life rootProc = .active ∧
    s.started rootProc = true ∧ s.exited rootProc = false ∧ s.freed rootProc = false ∧
    s.links.Ring (.children rootProc) [] ∧ s.links.Ring (.ptnode rootProc) []
  step := ProcRings.step

namespace ProcRings

variable {s t : ProcRings} {kids : ℕ → List ℕ} {p q c : ℕ}

/-! ### Rings and parents -/

theorem Forest.nodup (h : s.Forest kids) (hp : s.Alive p) : (kids p).Nodup :=
  List.Nodup.of_map _ (List.nodup_cons.mp (h.ring p hp).nodup).2

/-- The rings of two processes have no node in common. -/
theorem Forest.disjoint (h : s.Forest kids) (hpq : p ≠ q) {a : TreeNode}
    (ha : a ∈ TreeNode.children p :: (kids p).map .ptnode) :
    a ∉ TreeNode.children q :: (kids q).map .ptnode := by
  intro hb
  rcases List.mem_cons.mp ha with rfl | ha
  · rcases List.mem_cons.mp hb with heq | hb
    · exact hpq (TreeNode.children.inj heq)
    · obtain ⟨c, -, hc⟩ := List.mem_map.mp hb
      cases hc
  · obtain ⟨c, hc, rfl⟩ := List.mem_map.mp ha
    rcases List.mem_cons.mp hb with heq | hb
    · cases heq
    · obtain ⟨c', hc', heq⟩ := List.mem_map.mp hb
      obtain rfl := TreeNode.ptnode.inj heq
      have hp := ((h.mem p c').mp hc).2.2
      rw [((h.mem q c').mp hc').2.2] at hp
      exact hpq (Option.some.inj hp).symm

/-- The node of a process that is nobody's child is in no ring. -/
theorem Forest.ptnode_notMem (h : s.Forest kids) (hc : s.parent c = none ∨ ¬s.Alive c) (p : ℕ) :
    TreeNode.ptnode c ∉ TreeNode.children p :: (kids p).map .ptnode := by
  intro hmem
  rcases List.mem_cons.mp hmem with heq | hmem
  · cases heq
  · obtain ⟨c', hc', heq⟩ := List.mem_map.mp hmem
    obtain rfl := TreeNode.ptnode.inj heq
    obtain ⟨halive, -, hparent⟩ := (h.mem p c').mp hc'
    rcases hc with hnone | hdead
    · rw [hparent] at hnone
      cases hnone
    · exact hdead halive

/-- A ring has no more nodes than there are processes. -/
theorem Forest.length_le (h : s.Forest kids) (hp : s.Alive p) : (kids p).length ≤ s.next := by
  have hsub : kids p ⊆ List.range s.next := fun c hc =>
    List.mem_range.mpr ((h.mem p c).mp hc).1.1
  have hlen := (List.subperm_of_subset (h.nodup hp) hsub).length_le
  rwa [List.length_range] at hlen

/-- The loops over `p->children` come to the children. -/
theorem Forest.candidates_eq (h : s.Forest kids) (hp : s.Alive p) :
    s.candidates p = some (kids p) := by
  have hwalk := (h.ring p hp).walk (m := s.next + 1) (by
    rw [List.length_map]
    exact Nat.lt_succ_of_le (h.length_le hp))
  have hfilter : (((kids p).map TreeNode.ptnode) ++ [TreeNode.children p]).filter
      (fun v => v ≠ .children p) = (kids p).map TreeNode.ptnode := by
    rw [List.filter_append, List.filter_eq_self.mpr]
    · simp
    · intro v hv
      obtain ⟨c, -, rfl⟩ := List.mem_map.mp hv
      simp
  have hmap : ∀ cs : List ℕ, (cs.map TreeNode.ptnode).mapM TreeNode.containerOf = some cs := by
    intro cs
    induction cs with
    | nil => rfl
    | cons c cs ih =>
      rw [List.map_cons, List.mapM_cons, ih]
      rfl
  rw [candidates, hwalk, Option.bind_some, hfilter, hmap]

theorem adopt_eq (parent : ℕ → Option ℕ) (cs : List ℕ) (q : ℕ) :
    adopt parent cs q = if q ∈ cs then some rootProc else parent q := by
  induction cs generalizing parent with
  | nil => rfl
  | cons c cs ih =>
    rw [adopt, ih]
    by_cases hq : q ∈ cs
    · rw [if_pos hq, if_pos (List.mem_cons_of_mem c hq)]
    · rw [if_neg hq]
      by_cases hqc : q = c
      · rw [hqc, Function.update_self, if_pos List.mem_cons_self]
      · rw [Function.update_of_ne hqc, if_neg (by simp [hq, hqc])]

/-- Paths stay when each of their nodes keeps its parent, or becomes a child of the root. -/
theorem ToRoot.keep {parent parent' : ℕ → Option ℕ} {P : ℕ → Prop} (h : ToRoot parent c)
    (hc : P c) (hstep : ∀ c p, P c → c ≠ rootProc → parent c = some p →
      parent' c = some rootProc ∨ P p ∧ parent' c = some p) : ToRoot parent' c := by
  induction h with
  | root => exact .root
  | @step c p hparent _ ih =>
    by_cases hroot : c = rootProc
    · rw [hroot]
      exact .root
    · rcases hstep c p hc hroot hparent with hdirect | ⟨hp, hsame⟩
      · exact .step hdirect .root
      · exact .step hsame (ih hp)

/-- The parent of a process that is not the root has not been given up. -/
theorem Forest.alive_parent (h : s.Forest kids) (hc : s.Alive c) (hroot : c ≠ rootProc)
    (hparent : s.parent c = some p) : s.Alive p :=
  (h.home p (List.ne_nil_of_mem ((h.mem p c).mpr ⟨hc, hroot, hparent⟩))).1

/-! ### The steps -/

/-- A step that touches no pointer, and gives nobody up. -/
theorem Forest.aside (h : s.Forest kids) (hnext : t.next = s.next) (hlinks : t.links = s.links)
    (hparent : t.parent = s.parent) (hfreed : t.freed = s.freed)
    (hhome : ∀ p, kids p ≠ [] → s.life p = .active → s.exited p = false →
      p = rootProc ∨ t.life p = .active ∧ t.exited p = false)
    (hlinked : ∀ c, s.Alive c → t.started c = true → s.parent c ≠ none)
    (hstarted : ∀ c, s.Alive c → t.life c ≠ .unused → t.started c = true) : t.Forest kids := by
  have halive : ∀ q, t.Alive q ↔ s.Alive q := by
    intro q
    unfold Alive
    rw [hnext, hfreed]
  refine ⟨fun p hp => ?_, fun p c => ?_, fun p hp => ?_, ?_, fun c hc hst => ?_, fun c hc hl => ?_,
    fun c hc hpar => ?_⟩
  · rw [hlinks]
    exact h.ring p ((halive p).mp hp)
  · rw [halive, hparent]
    exact h.mem p c
  · obtain ⟨hp', hor⟩ := h.home p hp
    refine ⟨(halive p).mpr hp', ?_⟩
    rcases hor with hroot | ⟨hlife, hex⟩
    · exact .inl hroot
    · exact hhome p hp hlife hex
  · rw [halive, hparent]
    exact h.root
  · rw [hparent]
    exact hlinked c ((halive c).mp hc) hst
  · exact hstarted c ((halive c).mp hc) hl
  · rw [hparent] at hpar ⊢
    exact h.toRoot c ((halive c).mp hc) hpar

/-- `c`, which has no parent, becomes a child of `p`. -/
theorem Forest.link (h : s.Forest kids) (hp : s.Alive p) (hc : s.Alive c)
    (hhome : p = rootProc ∨ s.life p = .active ∧ s.exited p = false) (hnone : s.parent c = none) :
    (s.link p c).Forest (Function.update kids p (c :: kids p)) := by
  have hcroot : c ≠ rootProc := by
    rintro rfl
    rw [h.root.2] at hnone
    cases hnone
  have hppar : s.parent p ≠ none := by
    rcases hhome with rfl | ⟨hlife, -⟩
    · rw [h.root.2]
      simp
    · exact h.linked p hp (h.started p hp (by rw [hlife]; simp))
  have hcp : c ≠ p := by
    rintro rfl
    exact hppar hnone
  have hnot := fun q => h.ptnode_notMem (c := c) (.inl hnone) q
  -- no path comes to `c`
  have hkeep : ∀ q, ToRoot s.parent q → ToRoot (Function.update s.parent c (some p)) q := by
    intro q hq
    refine hq.keep (P := fun _ => True) trivial fun d r _ _ hd => .inr ⟨trivial, ?_⟩
    rw [Function.update_of_ne]
    · exact hd
    · rintro rfl
      rw [hnone] at hd
      cases hd
  refine ⟨fun q hq => ?_, fun q d => ?_, fun q hq => ?_, ?_, fun d hd hst => ?_, h.started,
    fun d hd hpar => ?_⟩
  · by_cases hqp : q = p
    · subst hqp
      rw [Function.update_self]
      exact (h.ring q hq).insert (hnot q)
    · rw [Function.update_of_ne hqp]
      exact (h.ring q hq).frame_insert (h.ring p hp) (hnot p) (hnot q) fun a ha =>
        h.disjoint (Ne.symm hqp) ha
  · show d ∈ _ ↔ s.Alive d ∧ d ≠ rootProc ∧ Function.update s.parent c (some p) d = some q
    by_cases hdc : d = c
    · subst hdc
      rw [Function.update_self, Option.some.injEq]
      by_cases hqp : q = p
      · subst hqp
        simp [hc, hcroot]
      · rw [Function.update_of_ne hqp]
        refine iff_of_false (fun hm => ?_) fun hm => hqp hm.2.2.symm
        have hpar := ((h.mem q d).mp hm).2.2
        rw [hnone] at hpar
        cases hpar
    · rw [Function.update_of_ne hdc, ← h.mem q d]
      by_cases hqp : q = p
      · subst hqp
        rw [Function.update_self, List.mem_cons]
        simp [hdc]
      · rw [Function.update_of_ne hqp]
  · by_cases hqp : q = p
    · subst hqp
      exact ⟨hp, hhome⟩
    · rw [Function.update_of_ne hqp] at hq
      exact h.home q hq
  · refine ⟨h.root.1, ?_⟩
    show Function.update s.parent c (some p) rootProc = _
    rw [Function.update_of_ne (Ne.symm hcroot)]
    exact h.root.2
  · show Function.update s.parent c (some p) d ≠ none
    by_cases hdc : d = c
    · rw [hdc, Function.update_self]
      simp
    · rw [Function.update_of_ne hdc]
      exact h.linked d hd hst
  · by_cases hdc : d = c
    · subst hdc
      exact .step (Function.update_self _ _ _) (hkeep p (h.toRoot p hp hppar))
    · have hpar' : s.parent d ≠ none := by
        have hd' : Function.update s.parent c (some p) d ≠ none := hpar
        rwa [Function.update_of_ne hdc] at hd'
      exact hkeep d (h.toRoot d hd hpar')

theorem Forest.create (h : s.Forest kids) :
    s.createProc.Forest (Function.update kids s.next []) := by
  have hdead : ¬s.Alive s.next := fun hd => Nat.lt_irrefl _ hd.1
  have hold : ∀ q, q ≠ s.next → (s.createProc.Alive q ↔ s.Alive q) := by
    intro q hq
    show q < s.next + 1 ∧ Function.update s.freed s.next false q = false ↔ _
    rw [Function.update_of_ne hq]
    exact and_congr_left' ⟨fun hlt => Nat.lt_of_le_of_ne (Nat.le_of_lt_succ hlt) hq,
      Nat.lt_succ_of_lt⟩
  have hroot : rootProc ≠ s.next := Nat.ne_of_lt h.root.1.1
  have hpar : ∀ q, q ≠ s.next → s.createProc.parent q = s.parent q := fun q hq =>
    Function.update_of_ne hq _ _
  have hnew : s.createProc.parent s.next = none := Function.update_self _ _ _
  -- nobody has the new process as its parent
  have hnobody : ∀ c, s.Alive c → c ≠ rootProc → s.parent c ≠ some s.next := by
    intro c hc hcroot hparent
    have hmem := (h.mem s.next c).mpr ⟨hc, hcroot, hparent⟩
    exact hdead (h.home s.next (List.ne_nil_of_mem hmem)).1
  have hchildren : ∀ q, q ≠ s.next →
      TreeNode.children s.next ∉ TreeNode.children q :: (kids q).map .ptnode := by
    intro q hq hmem
    rcases List.mem_cons.mp hmem with heq | hmem
    · exact hq (TreeNode.children.inj heq).symm
    · obtain ⟨c, -, hc⟩ := List.mem_map.mp hmem
      cases hc
  refine ⟨fun q hq => ?_, fun q c => ?_, fun q hq => ?_, ⟨(hold _ hroot).mpr h.root.1,
    (hpar _ hroot).trans h.root.2⟩, fun c hc hst => ?_, fun c hc hl => ?_, fun c hc hp => ?_⟩
  · by_cases hqn : q = s.next
    · subst hqn
      rw [Function.update_self]
      exact (Links.Ring.init _).frame_init (by simp)
    · rw [Function.update_of_ne hqn]
      exact ((h.ring q ((hold q hqn).mp hq)).frame_init (hchildren q hqn)).frame_init
        (h.ptnode_notMem (.inr hdead) q)
  · by_cases hcn : c = s.next
    · subst hcn
      rw [hnew]
      refine iff_of_false (fun hm => ?_) (by simp)
      by_cases hqn : q = s.next
      · rw [hqn, Function.update_self] at hm
        cases hm
      · rw [Function.update_of_ne hqn] at hm
        exact hdead ((h.mem q s.next).mp hm).1
    · rw [hold c hcn, hpar c hcn]
      by_cases hqn : q = s.next
      · subst hqn
        rw [Function.update_self]
        exact iff_of_false (by simp) fun hm => hnobody c hm.1 hm.2.1 hm.2.2
      · rw [Function.update_of_ne hqn]
        exact h.mem q c
  · by_cases hqn : q = s.next
    · rw [hqn, Function.update_self] at hq
      exact (hq rfl).elim
    · rw [Function.update_of_ne hqn] at hq
      obtain ⟨halive, hor⟩ := h.home q hq
      refine ⟨(hold q hqn).mpr halive, hor.imp_right fun hh => ?_⟩
      show Function.update s.life s.next .unused q = .active ∧
        Function.update s.exited s.next false q = false
      rw [Function.update_of_ne hqn, Function.update_of_ne hqn]
      exact hh
  · have hcn : c ≠ s.next := by
      rintro rfl
      have hst' : Function.update s.started s.next false s.next = true := hst
      rw [Function.update_self] at hst'
      cases hst'
    have hst' : Function.update s.started s.next false c = true := hst
    rw [Function.update_of_ne hcn] at hst'
    rw [hpar c hcn]
    exact h.linked c ((hold c hcn).mp hc) hst'
  · have hl' : Function.update s.life s.next .unused c ≠ .unused := hl
    have hcn : c ≠ s.next := by
      rintro rfl
      rw [Function.update_self] at hl'
      exact hl' rfl
    rw [Function.update_of_ne hcn] at hl'
    show Function.update s.started s.next false c = true
    rw [Function.update_of_ne hcn]
    exact h.started c ((hold c hcn).mp hc) hl'
  · have hcn : c ≠ s.next := by
      rintro rfl
      exact hp hnew
    have halive := (hold c hcn).mp hc
    refine (h.toRoot c halive (by rw [← hpar c hcn]; exact hp)).keep halive
      fun d r hd hdroot hdr => .inr ⟨h.alive_parent hd hdroot hdr, ?_⟩
    refine (hpar d ?_).trans hdr
    rintro rfl
    exact hdead hd

/-- What `exit` does to the children. -/
def movedKids (kids : ℕ → List ℕ) (p : ℕ) : ℕ → List ℕ :=
  let rest := Function.update kids p []
  Function.update rest rootProc (ProcTree.mergeList (kids p) (rest rootProc))

theorem movedKids_of_ne (hq : q ≠ rootProc) (hqp : q ≠ p) : movedKids kids p q = kids q := by
  unfold movedKids
  rw [Function.update_of_ne hq, Function.update_of_ne hqp]

theorem mem_mergeList (cs rest : List ℕ) : c ∈ ProcTree.mergeList cs rest ↔ c ∈ cs ∨ c ∈ rest := by
  unfold ProcTree.mergeList
  rcases List.eq_nil_or_concat cs with rfl | ⟨l, d, rfl⟩
  · simp
  · simp only [List.concat_eq_append, List.getLast?_concat, List.dropLast_concat]
    simp only [List.mem_append, List.mem_cons, List.not_mem_nil, or_false]
    tauto

/-- The children of `p` are children of the root afterwards. -/
theorem mem_movedKids : c ∈ movedKids kids p q ↔
    q = rootProc ∧ c ∈ kids p ∨ q ≠ p ∧ c ∈ kids q := by
  unfold movedKids
  by_cases hq : q = rootProc
  · subst hq
    rw [Function.update_self, mem_mergeList]
    by_cases hp : rootProc = p
    · rw [hp, Function.update_self]
      simp
    · rw [Function.update_of_ne hp]
      simp [hp]
  · rw [Function.update_of_ne hq]
    by_cases hqp : q = p
    · rw [hqp, Function.update_self]
      simp [hqp ▸ hq]
    · rw [Function.update_of_ne hqp]
      simp [hq, hqp]

/-- The rings after `exit` of a process with children. -/
theorem Forest.exit_ring (h : s.Forest kids) (hp : s.Alive p) {l : List ℕ} {d : ℕ}
    (hl : kids p = l ++ [d]) (hq : s.Alive q) :
    (((s.links.detach (.children p)).2).merge (.children rootProc) (.ptnode d)).Ring (.children q)
      ((movedKids kids p q).map .ptnode) := by
  have hring := h.ring p hp
  rw [hl, List.map_append, List.map_singleton] at hring
  obtain ⟨-, hrest⟩ := hring.detach_head
  have hrot := hring.rotate
  have hsplit : s.links.Ring (.ptnode d) ([] ++ .children p :: l.map .ptnode) := hrot
  -- the rings of the others when the head of `p` has left its own
  have hframe : ∀ r, s.Alive r → r ≠ p →
      (s.links.detach (.children p)).2.Ring (.children r) ((kids r).map .ptnode) := by
    intro r hr hrp
    refine (h.ring r hr).frame_detach hsplit fun a ha => ?_
    refine h.disjoint (Ne.symm hrp) ?_
    rw [hl, List.map_append, List.map_singleton]
    simp only [List.nil_append, List.mem_cons, List.mem_append, List.not_mem_nil, or_false] at ha ⊢
    tauto
  have hmoved : ∀ r, r ≠ p → ∀ a ∈ TreeNode.ptnode d :: l.map .ptnode,
      a ∉ TreeNode.children r :: (kids r).map .ptnode := by
    intro r hrp a ha
    refine h.disjoint (Ne.symm hrp) ?_
    rw [hl, List.map_append, List.map_singleton]
    simp only [List.mem_cons, List.mem_append, List.not_mem_nil, or_false] at ha ⊢
    tauto
  have hmerge : ∀ rest, ProcTree.mergeList (kids p) rest = d :: l ++ rest := by
    intro rest
    rw [hl]
    simp [ProcTree.mergeList]
  -- the ring of the root before the children come
  obtain ⟨ks, hks, hsub, hrootring, hdisj⟩ : ∃ ks, movedKids kids p rootProc = d :: (l ++ ks) ∧
      ks ⊆ kids rootProc ∧ (s.links.detach (.children p)).2.Ring (.children rootProc) (ks.map .ptnode) ∧
      ∀ a ∈ TreeNode.children rootProc :: ks.map .ptnode, a ∉ TreeNode.ptnode d :: l.map .ptnode := by
    by_cases hroot : p = rootProc
    · refine ⟨[], ?_, by simp, ?_, fun a ha => ?_⟩
      · unfold movedKids
        rw [Function.update_self, hmerge, hroot, Function.update_self]
        rfl
      · rw [← hroot]
        exact Links.Ring.detach_self _ _
      · rw [List.map_nil, List.mem_singleton] at ha
        rw [ha]
        simp
    · refine ⟨kids rootProc, ?_, List.Subset.refl _, hframe _ h.root.1 (Ne.symm hroot), fun a ha hm =>
        hmoved rootProc (Ne.symm hroot) a hm ha⟩
      unfold movedKids
      rw [Function.update_self, Function.update_of_ne (Ne.symm hroot), hmerge]
      rfl
  by_cases hqroot : q = rootProc
  · subst hqroot
    rw [hks]
    have hall := hrootring.merge hrest hdisj
    rwa [← List.map_append] at hall
  · by_cases hqp : q = p
    · subst hqp
      have hnil : movedKids kids q q = [] := by
        unfold movedKids
        rw [Function.update_of_ne hqroot, Function.update_self]
      rw [hnil]
      refine (Links.Ring.detach_self s.links _).frame_merge hrootring hrest (fun a ha hm => ?_)
        fun a ha hm => ?_
      · obtain rfl := List.mem_singleton.mp hm
        rcases List.mem_cons.mp ha with heq | ha
        · exact hqroot (TreeNode.children.inj heq)
        · obtain ⟨c, -, hc⟩ := List.mem_map.mp ha
          cases hc
      · obtain rfl := List.mem_singleton.mp hm
        rcases List.mem_cons.mp ha with heq | ha
        · cases heq
        · obtain ⟨c, -, hc⟩ := List.mem_map.mp ha
          cases hc
    · rw [movedKids_of_ne hqroot hqp]
      refine (hframe q hq hqp).frame_merge hrootring hrest (fun a ha => ?_) (hmoved q hqp)
      refine h.disjoint (Ne.symm hqroot) ?_
      rcases List.mem_cons.mp ha with rfl | ha
      · exact List.mem_cons_self
      · exact List.mem_cons_of_mem _ (List.map_subset _ hsub ha)

/-- What the section of `exit` does to the pointers. -/
theorem Forest.exit_eq (h : s.Forest kids) (hp : s.Alive p) (hs : s.exit p = some t) :
    t.next = s.next ∧ t.life = s.life ∧ t.started = s.started ∧ t.freed = s.freed ∧
      t.exited = Function.update s.exited p true ∧
      (∀ c, t.parent c = if c ∈ kids p then some rootProc else s.parent c) ∧
      ∀ q, s.Alive q → t.links.Ring (.children q) ((movedKids kids p q).map .ptnode) := by
  unfold exit at hs
  have hring := h.ring p hp
  rcases List.eq_nil_or_concat (kids p) with hnil | ⟨l, d, hl⟩
  · -- no children: the ring is its head alone
    have hself : s.links.next (.children p) = .children p := by
      rw [hnil] at hring
      exact (hring.next_eq (l := []) (r := []) rfl).1
    simp only [hself, if_true] at hs
    cases hs
    refine ⟨rfl, rfl, rfl, rfl, rfl, fun c => ?_, fun q hq => ?_⟩
    · rw [hnil]
      rfl
    · have hsame : movedKids kids p q = kids q := by
        unfold movedKids
        by_cases hqroot : q = rootProc
        · rw [hqroot, Function.update_self, hnil]
          show Function.update kids p [] rootProc = _
          rw [← hnil, Function.update_eq_self]
        · rw [Function.update_of_ne hqroot, ← hnil, Function.update_eq_self]
      rw [hsame]
      exact h.ring q hq
  · rw [List.concat_eq_append] at hl
    have hne : s.links.next (.children p) ≠ .children p := by
      intro hself
      have hmem : s.links.next (.children p) ∈ (kids p).map .ptnode := by
        cases hk : kids p with
        | nil =>
          rw [hk] at hl
          simp at hl
        | cons k ks =>
          rw [hk] at hring
          rw [(hring.next_eq (a := .children p) (b := .ptnode k) (l := [])
            (r := ks.map .ptnode ++ [.children p]) rfl).1]
          exact List.mem_cons_self
      rw [hself] at hmem
      obtain ⟨c, -, hc⟩ := List.mem_map.mp hmem
      cases hc
    simp only [if_neg hne] at hs
    obtain ⟨cs, hcs, rfl⟩ := Option.map_eq_some_iff.mp hs
    have hcs' : s.candidates p = some cs := hcs
    rw [h.candidates_eq hp] at hcs'
    obtain rfl := Option.some.inj hcs'
    rw [hl, List.map_append, List.map_singleton] at hring
    have hdetach := hring.detach_head.1
    refine ⟨rfl, rfl, rfl, rfl, rfl, fun c => adopt_eq s.parent (kids p) c, fun q hq => ?_⟩
    simp only [hdetach]
    exact h.exit_ring hp hl hq

theorem Forest.exit (h : s.Forest kids) (hp : s.Runs p) (hs : s.exit p = some t) :
    t.Forest (movedKids kids p) := by
  have halive : s.Alive p := ⟨hp.1, hp.2.1⟩
  obtain ⟨hnext, hlife, hstarted, hfreed, hexited, hparent, hring⟩ := h.exit_eq halive hs
  have hal : ∀ q, t.Alive q ↔ s.Alive q := by
    intro q
    unfold Alive
    rw [hnext, hfreed]
  have hrootkid : rootProc ∉ kids p := fun hm => ((h.mem p rootProc).mp hm).2.1 rfl
  refine ⟨fun q hq => hring q ((hal q).mp hq), fun q c => ?_, fun q hq => ?_, ⟨(hal _).mpr h.root.1,
    ?_⟩, fun c hc hst => ?_, fun c hc hl => ?_, fun c hc hpar => ?_⟩
  · rw [mem_movedKids, hal, hparent]
    by_cases hc : c ∈ kids p
    · obtain ⟨hca, hcroot, hcp⟩ := (h.mem p c).mp hc
      rw [if_pos hc, Option.some.injEq]
      -- a child of `p` is in no other ring
      have hnot : ¬(q ≠ p ∧ c ∈ kids q) := by
        rintro ⟨hqp, hm⟩
        have hcq := ((h.mem q c).mp hm).2.2
        rw [hcp] at hcq
        exact hqp (Option.some.inj hcq).symm
      constructor
      · rintro (⟨rfl, -⟩ | hm)
        · exact ⟨hca, hcroot, rfl⟩
        · exact (hnot hm).elim
      · rintro ⟨-, -, rfl⟩
        exact .inl ⟨rfl, hc⟩
    · rw [if_neg hc, ← h.mem q c]
      constructor
      · rintro (⟨-, hm⟩ | ⟨-, hm⟩)
        · exact (hc hm).elim
        · exact hm
      · intro hm
        refine .inr ⟨?_, hm⟩
        rintro rfl
        exact hc hm
  · obtain ⟨c, hc⟩ := List.exists_mem_of_ne_nil _ hq
    rcases mem_movedKids.mp hc with ⟨rfl, -⟩ | ⟨hqp, hm⟩
    · exact ⟨(hal _).mpr h.root.1, .inl rfl⟩
    · obtain ⟨hqa, hor⟩ := h.home q (List.ne_nil_of_mem hm)
      rw [hlife, hexited, Function.update_of_ne hqp]
      exact ⟨(hal q).mpr hqa, hor⟩
  · rw [hparent, if_neg hrootkid]
    exact h.root.2
  · rw [hparent]
    split
    · simp
    · rw [hstarted] at hst
      exact h.linked c ((hal c).mp hc) hst
  · rw [hlife] at hl
    rw [hstarted]
    exact h.started c ((hal c).mp hc) hl
  · have hca := (hal c).mp hc
    rw [hparent] at hpar
    by_cases hck : c ∈ kids p
    · refine .step (p := rootProc) ?_ .root
      rw [hparent, if_pos hck]
    · rw [if_neg hck] at hpar
      refine (h.toRoot c hca hpar).keep hca fun d r hd hdroot hdr => ?_
      rw [hparent]
      by_cases hdk : d ∈ kids p
      · rw [if_pos hdk]
        exact .inl rfl
      · rw [if_neg hdk]
        exact .inr ⟨h.alive_parent hd hdroot hdr, hdr⟩

/-- `wait` takes a zombie out of the ring of its parent. -/
theorem Forest.waitScan (h : s.Forest kids) (hp : s.Alive p) (hs : s.waitScan p = some t) :
    ∃ c ∈ kids p, s.life c = .zombie ∧ t.Forest (Function.update kids p ((kids p).erase c)) := by
  unfold ProcRings.waitScan at hs
  rw [h.candidates_eq hp, Option.bind_some] at hs
  obtain ⟨c, hc, rfl⟩ := Option.map_eq_some_iff.mp hs
  have hmem := List.mem_of_find?_eq_some hc
  have hzombie : s.life c = .zombie := by
    have hfound := List.find?_some hc
    exact of_decide_eq_true hfound
  refine ⟨c, hmem, hzombie, ?_⟩
  obtain ⟨hca, hcroot, hcp⟩ := (h.mem p c).mp hmem
  -- a zombie has no children
  have hnokids : kids c = [] := by
    by_contra hne
    rcases (h.home c hne).2 with hroot | ⟨hlife, -⟩
    · exact hcroot hroot
    · rw [hzombie] at hlife
      cases hlife
  obtain ⟨l, r, hnot, hl⟩ : ∃ l r, c ∉ l ∧ kids p = l ++ c :: r := by
    obtain ⟨l, r, hl, hnot⟩ := List.eq_append_cons_of_mem hmem
    exact ⟨l, r, hnot, hl⟩
  have herase : (kids p).erase c = l ++ r := by
    rw [hl, List.erase_append_right _ hnot, List.erase_cons_head]
  have hcr : c ∉ l ++ r := by
    have hnodup := h.nodup hp
    rw [hl] at hnodup
    exact (List.nodup_middle.mp hnodup).notMem
  have hold : ∀ q, q ≠ c → (Function.update s.freed c true q = false ↔ s.freed q = false) := by
    intro q hq
    rw [Function.update_of_ne hq]
  have hring := h.ring p hp
  rw [hl, List.map_append, List.map_cons] at hring
  have hdead : ¬(c < s.next ∧ Function.update s.freed c true c = false) := by
    rw [Function.update_self]
    simp
  rw [herase]
  refine ⟨fun q hq => ?_, fun q d => ?_, fun q hq => ?_, ⟨⟨h.root.1.1, ?_⟩, h.root.2⟩,
    fun d hd hst => ?_, fun d hd hlf => ?_, fun d hd hpar => ?_⟩
  · have hqc : q ≠ c := by
      rintro rfl
      exact hdead hq
    have hqa : s.Alive q := ⟨hq.1, (hold q hqc).mp hq.2⟩
    by_cases hqp : q = p
    · subst hqp
      rw [Function.update_self, List.map_append]
      exact hring.detach
    · rw [Function.update_of_ne hqp]
      refine (h.ring q hqa).frame_detach hring fun a ha => h.disjoint (Ne.symm hqp) ?_
      rw [hl, List.map_append, List.map_cons]
      exact ha
  · show d ∈ _ ↔ (d < s.next ∧ Function.update s.freed c true d = false) ∧ _
    by_cases hdc : d = c
    · subst hdc
      refine iff_of_false (fun hm => ?_) fun hm => hdead hm.1
      by_cases hqp : q = p
      · rw [hqp, Function.update_self] at hm
        exact hcr hm
      · rw [Function.update_of_ne hqp] at hm
        have hq := ((h.mem q d).mp hm).2.2
        rw [hcp] at hq
        exact hqp (Option.some.inj hq).symm
    · rw [hold d hdc]
      show d ∈ _ ↔ s.Alive d ∧ d ≠ rootProc ∧ s.parent d = some q
      rw [← h.mem q d]
      by_cases hqp : q = p
      · subst hqp
        rw [Function.update_self, hl]
        simp [hdc]
      · rw [Function.update_of_ne hqp]
  · have hkids : kids q ≠ [] := by
      by_cases hqp : q = p
      · subst hqp
        exact List.ne_nil_of_mem hmem
      · rwa [Function.update_of_ne hqp] at hq
    obtain ⟨hqa, hor⟩ := h.home q hkids
    have hqc : q ≠ c := by
      rintro rfl
      exact hkids hnokids
    exact ⟨⟨hqa.1, (hold q hqc).mpr hqa.2⟩, hor⟩
  · exact (hold _ (Ne.symm hcroot)).mpr h.root.1.2
  all_goals
    have hdc : d ≠ c := by
      rintro rfl
      exact hdead hd
    have hda : s.Alive d := ⟨hd.1, (hold d hdc).mp hd.2⟩
  · exact h.linked d hda hst
  · exact h.started d hda hlf
  · exact h.toRoot d hda hpar

/-- A process that has a parent is started. -/
theorem Forest.setStarted (h : s.Forest kids) (hc : s.parent c ≠ none) :
    ProcRings.Forest { s with started := Function.update s.started c true } kids := by
  refine h.aside rfl rfl rfl rfl (fun _ _ hl he => .inr ⟨hl, he⟩) (fun d hd hst => ?_)
    fun d hd hlf => ?_
  · by_cases hdc : d = c
    · rwa [hdc]
    · have hst' : Function.update s.started c true d = true := hst
      rw [Function.update_of_ne hdc] at hst'
      exact h.linked d hd hst'
  · show Function.update s.started c true d = true
    by_cases hdc : d = c
    · rw [hdc, Function.update_self]
    · rw [Function.update_of_ne hdc]
      exact h.started d hd hlf

/-- Every step keeps the forest. -/
theorem Forest.step {a : RingCall} (h : s.Forest kids) (hs : s.step a = some t) :
    ∃ kids', t.Forest kids' := by
  cases a with
  | create =>
    cases hs
    exact ⟨_, h.create⟩
  | setParent p c =>
    simp only [ProcRings.step] at hs
    split at hs
    · rename_i hok
      cases hs
      exact ⟨_, h.link ⟨hok.1.1, hok.1.2.1⟩ hok.2.1 (.inr hok.1.2.2) hok.2.2⟩
    · cases hs
  | start p c =>
    simp only [ProcRings.step] at hs
    split at hs
    · rename_i hok
      cases hs
      by_cases hnone : s.parent c = none
      · simp only [if_pos hnone]
        have hlink := h.link h.root.1 hok.2 (.inl rfl) hnone
        refine ⟨_, hlink.setStarted ?_⟩
        show Function.update s.parent c _ c ≠ none
        rw [Function.update_self]
        simp
      · simp only [if_neg hnone]
        exact ⟨_, h.setStarted hnone⟩
    · cases hs
  | activate c =>
    simp only [ProcRings.step] at hs
    split at hs
    · rename_i hok
      cases hs
      refine ⟨kids, h.aside rfl rfl rfl rfl (fun p _ hl he => .inr ⟨?_, he⟩) h.linked
        fun d hd hlf => ?_⟩
      · show Function.update s.life c .active p = .active
        by_cases hpc : p = c
        · rw [hpc, Function.update_self]
        · rw [Function.update_of_ne hpc]
          exact hl
      · by_cases hdc : d = c
        · rw [hdc]
          exact hok.2.1
        · have hlf' : Function.update s.life c .active d ≠ .unused := hlf
          rw [Function.update_of_ne hdc] at hlf'
          exact h.started d hd hlf'
    · cases hs
  | exit p =>
    simp only [ProcRings.step] at hs
    split at hs
    · rename_i hruns
      exact ⟨_, h.exit hruns hs⟩
    · cases hs
  | schedZombie p =>
    simp only [ProcRings.step] at hs
    split at hs
    · rename_i hok
      cases hs
      refine ⟨kids, h.aside rfl rfl rfl rfl (fun q _ hl he => .inr ⟨?_, he⟩) h.linked
        fun d hd hlf => ?_⟩
      · have hqp : q ≠ p := by
          rintro rfl
          rw [hok.2] at he
          cases he
        exact (Function.update_of_ne hqp _ _).trans hl
      · refine h.started d hd ?_
        by_cases hdp : d = p
        · rw [hdp, hok.1]
          simp
        · have hlf' : Function.update s.life p .zombie d ≠ .unused := hlf
          rwa [Function.update_of_ne hdp] at hlf'
    · cases hs
  | wait p =>
    simp only [ProcRings.step] at hs
    split at hs
    · rename_i hruns
      obtain ⟨c, -, -, hforest⟩ := h.waitScan ⟨hruns.1, hruns.2.1⟩ hs
      exact ⟨_, hforest⟩
    · cases hs

theorem forest_init (h : ringSystem.init s) : s.Forest fun _ => [] := by
  obtain ⟨hnext, hparent, hlife, hstarted, hexited, hfreed, hring, -⟩ := h
  have hroot : ∀ c, s.Alive c → c = rootProc := by
    intro c hc
    have hlt := hc.1
    rw [hnext] at hlt
    exact Nat.lt_one_iff.mp hlt
  refine ⟨fun p hp => ?_, fun p c => ?_, fun p hp => (hp rfl).elim, ⟨⟨?_, hfreed⟩, hparent⟩,
    fun c hc _ => ?_, fun c hc _ => ?_, fun c hc _ => ?_⟩
  · rw [hroot p hp]
    exact hring
  · exact iff_of_false (by simp) fun hm => hm.2.1 (hroot c hm.1)
  · rw [hnext]
    exact Nat.one_pos
  · rw [hroot c hc, hparent]
    simp
  · rw [hroot c hc]
    exact hstarted
  · rw [hroot c hc]
    exact .root

/-- A tree in memory: every ring is circular, a started process is once in the ring of its
parent and in no other one, and all parents lead to the root. -/
structure IsTree (s : ProcRings) (kids : ℕ → List ℕ) : Prop where
  ring : ∀ p, s.Alive p → s.links.Ring (.children p) ((kids p).map .ptnode)
  once : ∀ c, s.Alive c → s.started c = true → c ≠ rootProc →
    ∃ p, s.Alive p ∧ s.parent c = some p ∧ (kids p).count c = 1 ∧ ∀ q, q ≠ p → c ∉ kids q
  toRoot : ∀ c, s.Alive c → s.parent c ≠ none → ToRoot s.parent c

theorem Forest.isTree (h : s.Forest kids) : s.IsTree kids := by
  refine ⟨h.ring, fun c hc hst hroot => ?_, h.toRoot⟩
  obtain ⟨p, hp⟩ := Option.ne_none_iff_exists'.mp (h.linked c hc hst)
  have hmem := (h.mem p c).mpr ⟨hc, hroot, hp⟩
  have hpa := h.alive_parent hc hroot hp
  refine ⟨p, hpa, hp, List.count_eq_one_of_mem (h.nodup hpa) hmem, fun q hqp hq => ?_⟩
  have hq' := ((h.mem q c).mp hq).2.2
  rw [hp] at hq'
  exact hqp (Option.some.inj hq').symm

/-- The loop of `exit` comes to its end. -/
theorem Forest.exit_isSome (h : s.Forest kids) (hp : s.Runs p) : ∃ t, s.step (.exit p) = some t := by
  have hcs : ProcRings.candidates { s with exited := Function.update s.exited p true } p
      = some (kids p) := h.candidates_eq ⟨hp.1, hp.2.1⟩
  simp only [ProcRings.step, if_pos hp, ProcRings.exit, hcs]
  split
  · exact ⟨_, rfl⟩
  · exact ⟨_, rfl⟩

/-- After `define_init(root_proc)`: all nodes are alone. -/
def boot : ProcRings where
  next := 1
  links := ⟨id, id⟩
  parent c := if c = rootProc then some rootProc else none
  life c := if c = rootProc then .active else .unused
  started c := c = rootProc
  exited _ := false
  freed _ := false

theorem init_boot : ringSystem.init boot := by
  have hself : ∀ n, boot.links.Ring n [] := fun n =>
    ⟨List.nodup_singleton n, List.isChain_cons_cons.mpr ⟨⟨rfl, rfl⟩, .singleton n⟩⟩
  exact ⟨rfl, rfl, rfl, rfl, rfl, rfl, hself _, hself _⟩

end ProcRings

/-- **The processes form a tree**, in every reachable state; and `exit` of a running process
moves its children, in the order in which the ring has them from its last node on, to the ring
of the root, and leaves all other rings and parents as they are. -/
theorem procRings_tree (s : ProcRings) (h : ringSystem.Reachable (fun _ _ => True) s) :
    ∃ kids, s.IsTree kids ∧ ∀ p, s.Runs p → ∃ t, s.step (.exit p) = some t ∧
      t.IsTree (ProcRings.movedKids kids p) ∧
      ∀ c, t.parent c = if c ∈ kids p then some rootProc else s.parent c := by
  obtain ⟨kids, hforest⟩ : ∃ kids, s.Forest kids := by
    refine h.induction (I := fun s => ∃ kids, s.Forest kids) (fun s hs => ⟨_, ProcRings.forest_init hs⟩)
      fun s a t hinv _ hs => ?_
    obtain ⟨kids, hforest⟩ := hinv
    exact hforest.step hs
  refine ⟨kids, hforest.isTree, fun p hp => ?_⟩
  obtain ⟨t, ht⟩ := hforest.exit_isSome hp
  have hexit : s.exit p = some t := by
    simp only [ProcRings.step, if_pos hp] at ht
    exact ht
  exact ⟨t, ht, (hforest.exit hp hexit).isTree, (hforest.exit_eq ⟨hp.1, hp.2.1⟩ hexit).2.2.2.2.2.1⟩

/-- Process 1 has exited before its children 2 and 3, and 3 has been reaped by the root. -/
theorem procRings_tree_three : ∃ (s : ProcRings) (kids : ℕ → List ℕ), s.parent 2 = some 0 ∧
    s.exited 1 = true ∧ s.freed 3 = true ∧ s.IsTree kids := by
  have hrun : (ringSystem.exec (fun _ _ => True) .boot
      [.create, .start 0 1, .activate 1, .create, .create, .setParent 1 2, .start 1 2, .setParent 1 3,
        .start 1 3, .activate 3, .activate 2, .exit 3, .exit 1, .schedZombie 3, .wait 0]).map
      (fun s => (s.parent 2, s.exited 1, s.freed 3)) = some (some 0, true, true) := by
    decide +kernel
  obtain ⟨s, hs, heq⟩ := Option.map_eq_some_iff.mp hrun
  obtain ⟨hparent, heq⟩ := Prod.mk.inj heq
  obtain ⟨hexited, hfreed⟩ := Prod.mk.inj heq
  obtain ⟨kids, htree, -⟩ := procRings_tree s ⟨_, ProcRings.init_boot, System.leads_of_exec hs⟩
  exact ⟨s, kids, hparent, hexited, hfreed, htree⟩

end OsLab
