/-
The permits of `childexit` (`exit`, `wait` in `kernel/proc.c`).

A process that exits posts to the `childexit` of its parent under `treelock` and becomes
a zombie later, under the scheduler lock.  `ProcTree.owed` counts the permits of a
process, with the one that a `wait` in progress has taken, and `ProcTree.announced` its
children that have exited or are on their way.

* `ProcTree.Inv`, `inv_step` — the permits are covered by announced children;
* `wait_returns` — so `wait` finds a zombie when it is `Timely`;
* `childexit_exact` — in an `Orderly` run without `kill` they are equal in number.
-/
import OsLab.Kernel.ProcTree
import Mathlib.Data.List.Count
import Mathlib.Data.List.Nodup
import Mathlib.Data.List.Perm.Basic
import Mathlib.Algebra.Order.Ring.Int

namespace OsLab

/-! ### A semaphore that one process waits for -/

namespace SemState

/-- Only `p` waits for the semaphore, in the `wait_sem` of `wait`. -/
structure OneWaiter (p : ℕ) (pc : ProcPc) (s : SemState) : Prop where
  inv : s.Inv 0
  only : ∀ q, s.pc q ≠ .outside ↔ q = p ∧ pc = .inSem

/-- Who has been made runnable has left the list: no alert came first. -/
def Prompt (s : SemState) : Prop := ∀ q, s.pc q = .woken → q ∉ s.sem.sleeplist

/-- The posts that have not been used up: `wait` uses one when it removes a child. -/
def owed (p : ℕ) (pc : ProcPc) (s : SemState) : ℤ :=
  s.posts - s.granted.length +
    if pc = .scan true ∨ (pc = .inSem ∧ p ∉ s.sem.sleeplist) then 1 else 0

variable {s t : SemState} {p : ℕ} {pc pc' : ProcPc}

theorem oneWaiter_new (h : pc ≠ .inSem) : OneWaiter p pc (new 0) :=
  ⟨inv_init (init_new 0) (Int.le_refl 0), fun _ => iff_of_false (by simp [new]) (by simp [h])⟩

theorem prompt_new : Prompt (new 0) := by
  intro q hq
  simp [new] at hq

theorem owed_scan : owed p (.scan true) s = s.posts - s.granted.length + 1 := by
  rw [owed, if_pos (.inl rfl)]

theorem owed_of_ne (h : pc ≠ .inSem) (h' : pc ≠ .scan true) :
    owed p pc s = s.posts - s.granted.length := by
  rw [owed, if_neg (by simp [h, h']), add_zero]

theorem owed_new (h : pc ≠ .inSem) (h' : pc ≠ .scan true) : owed p pc (new 0) = 0 := by
  simp [owed_of_ne h h', new]

theorem OneWaiter.setPc (h : OneWaiter p pc s) (hpc : pc ≠ .inSem) (hpc' : pc' ≠ .inSem) :
    OneWaiter p pc' s := by
  refine ⟨h.inv, fun q => ?_⟩
  rw [h.only q]
  simp [hpc, hpc']

theorem owed_setPc (hpc : pc ≠ .inSem ∧ pc ≠ .scan true) (hpc' : pc' ≠ .inSem ∧ pc' ≠ .scan true) :
    owed p pc' s = owed p pc s := by
  rw [owed_of_ne hpc.1 hpc.2, owed_of_ne hpc'.1 hpc'.2]

/-- The list is empty, or `p` alone is on it. -/
theorem OneWaiter.sleeplist_cases (h : OneWaiter p pc s) :
    s.sem.sleeplist = [] ∨ pc = .inSem ∧ s.sem.sleeplist = [p] := by
  have hp : ∀ q ∈ s.sem.sleeplist, q = p ∧ pc = .inSem := fun q hq =>
    (h.only q).mp (h.inv.queued q hq).1
  have hnodup := h.inv.nodup
  cases hl : s.sem.sleeplist with
  | nil => exact .inl rfl
  | cons a l =>
    rw [hl] at hp hnodup
    obtain ⟨rfl, hpc⟩ := hp a List.mem_cons_self
    refine .inr ⟨hpc, ?_⟩
    cases l with
    | nil => rfl
    | cons b l =>
      have hb := (hp b (by simp)).1
      subst hb
      simp at hnodup

/-- What is owed is not negative, and a `wait` that was granted a permit has one. -/
theorem OneWaiter.owed_scan_pos (h : OneWaiter p (.scan true) s) : 1 ≤ owed p (.scan true) s := by
  have hlength := h.inv.length
  have hpermits := h.inv.permits
  rw [owed_scan]
  omega

/-- `post_sem`: one more is owed. -/
theorem OneWaiter.post (h : OneWaiter p pc s) :
    ∃ t, s.postSem = some t ∧ OneWaiter p pc t ∧ owed p pc t = owed p pc s + 1 ∧
      (s.Prompt → t.Prompt) := by
  rcases h.sleeplist_cases with hnil | ⟨hpc, hl⟩
  · obtain ⟨hpost, hinv⟩ := postSem_nil h.inv hnil
    refine ⟨_, hpost, ⟨hinv, h.only⟩, ?_, id⟩
    simp only [owed]
    push_cast
    omega
  · -- `p` sleeps and is given the permit
    obtain ⟨hpost, hinv⟩ := postSem_append (l := []) h.inv hl
    refine ⟨_, hpost, ⟨hinv, fun q => ?_⟩, ?_, fun _ q _ => List.not_mem_nil⟩
    · by_cases hq : q = p
      · simp [wakeLast, hq, hpc]
      · simp only [wakeLast, Function.update_of_ne hq]
        exact h.only q
    · simp only [owed, wakeLast, hpc, hl]
      simp

/-- `wait_sem` that returns at once or sleeps: nothing is used up. -/
theorem OneWaiter.wait (h : OneWaiter p .waiting s) (ht : s.wait p true = t)
    (hpc : pc = if t.pc p = .outside then .scan true else .inSem) :
    OneWaiter p pc t ∧ owed p pc t = owed p .waiting s ∧ (s.Prompt → t.Prompt) := by
  have hout : ∀ q, s.pc q = .outside := by
    intro q
    by_contra hq
    cases ((h.only q).mp hq).2
  have hnil : s.sem.sleeplist = [] := by
    rcases h.sleeplist_cases with hnil | ⟨hpc, -⟩
    · exact hnil
    · cases hpc
  have hinv : t.Inv 0 := ht ▸ inv_wait h.inv (hout p)
  by_cases hpos : 0 ≤ s.sem.val - 1
  · simp only [SemState.wait, Semaphore.wait, if_pos hpos, if_true] at ht
    subst ht
    have hpc' : pc = .scan true := hpc.trans (if_pos (hout p))
    subst hpc'
    refine ⟨⟨hinv, fun q => ?_⟩, ?_, id⟩
    · exact iff_of_false (by simp [grantNext, hout q]) (by simp)
    · rw [owed_scan, owed_of_ne (by simp) (by simp)]
      simp only [grantNext, List.length_append, List.length_singleton]
      omega
  · simp only [SemState.wait, Semaphore.wait, if_neg hpos, Bool.false_eq_true, if_false] at ht
    subst ht
    simp only [Function.update_self, reduceCtorEq, if_false] at hpc
    subst hpc
    refine ⟨⟨hinv, fun q => ?_⟩, ?_, fun _ q hq => ?_⟩
    · by_cases hq : q = p
      · simp [hq]
      · simp [hq, hout q]
    · rw [owed, if_neg (by simp), add_zero, owed_of_ne (by simp) (by simp)]
    · by_cases hqp : q = p
      · simp [hqp] at hq
      · simp [hqp, hout q] at hq

/-- The return of `wait_sem` with the permit. -/
theorem OneWaiter.resume (h : OneWaiter p .inSem s) (hup : s.up p = true)
    (ht : s.step (.resume p) = some t) :
    OneWaiter p (.scan true) t ∧ owed p (.scan true) t = owed p .inSem s ∧ (s.Prompt → t.Prompt) := by
  have hinv := inv_step h.inv ht
  have hmem : p ∉ s.sem.sleeplist := by
    intro hmem
    rw [(h.inv.queued p hmem).2] at hup
    cases hup
  simp only [SemState.step] at ht
  split at ht
  · rw [SemState.resume, if_pos hup] at ht
    cases ht
    refine ⟨⟨hinv, fun q => iff_of_false ?_ (by simp)⟩, ?_, fun hprompt q hq => ?_⟩
    · by_cases hq : q = p
      · simp [hq]
      · simp only [Function.update_of_ne hq]
        intro hne
        exact hq ((h.only q).mp hne).1
    · simp [owed, hmem]
    · by_cases hqp : q = p
      · simp [hqp] at hq
      · simp only [Function.update_of_ne hqp] at hq
        exact hprompt q hq
  · cases ht

/-- `alert_proc` gives no permit. -/
theorem OneWaiter.alert (h : OneWaiter p pc s) (q : ℕ) :
    OneWaiter p pc (s.alert q) ∧ owed p pc (s.alert q) = owed p pc s := by
  have hinv := inv_alert h.inv (p := q)
  unfold SemState.alert at hinv ⊢
  split
  · rename_i hq
    rw [if_pos hq] at hinv
    refine ⟨⟨hinv, fun r => ?_⟩, rfl⟩
    by_cases hr : r = q
    · subst hr
      have hsleep := h.only r
      simp only [hq] at hsleep
      simpa using hsleep
    · simp only [Function.update_of_ne hr]
      exact h.only r
  · exact ⟨h, rfl⟩

end SemState

/-! ### The tree -/

namespace ProcTree

/-- Has passed the section of `exit` under `treelock`. -/
def Announced (pc : ProcPc) : Prop := pc = .exiting ∨ pc = .gone

instance (pc : ProcPc) : Decidable (Announced pc) := inferInstanceAs (Decidable (_ ∨ _))

/-- The children of `p` that have exited or are on their way. -/
def announced (s : ProcTree) (p : ℕ) : ℕ := (s.children p).countP fun c => Announced (s.pc c)

/-- The children of `p` that are zombies. -/
def zombies (s : ProcTree) (p : ℕ) : ℕ := (s.children p).countP fun c => s.life c = .zombie

/-- What is owed to `p`. -/
def owed (s : ProcTree) (p : ℕ) : ℤ := (s.childexit p).owed p (s.pc p)

/-- The invariant.  With `exact`, nothing but the permits of the announced children is
ever owed. -/
structure Inv (exact : Prop) (s : ProcTree) : Prop where
  nodup : ∀ p, (s.children p).Nodup
  parent : ∀ p, ∀ c ∈ s.children p, s.parent c = some p
  irrefl : ∀ p, p ∉ s.children p
  root_notMem : ∀ p, rootProc ∉ s.children p
  root : s.parent rootProc = some rootProc
  started : ∀ c, s.life c ≠ .unused → s.parent c ≠ none
  starting : ∀ p c, s.pc p = .starting c → s.parent c ≠ none
  /-- a process that has not been removed by `wait` is a child of its parent -/
  linked : ∀ c p, s.parent c = some p → c ≠ rootProc → s.life c ≠ .zombie → c ∈ s.children p
  unused : ∀ c, s.life c = .unused → s.pc c = .outside
  gone : ∀ c, s.pc c = .gone ↔ s.life c = .zombie
  fresh : ∀ c, s.next ≤ c → s.parent c = none
  empty : ∀ p, s.next ≤ p → s.children p = []
  noFail : ∀ p, s.pc p ≠ .scan false
  sem : ∀ p, (s.childexit p).OneWaiter p (s.pc p)
  prompt : exact → ∀ p, (s.childexit p).Prompt
  owed_le : ∀ p, ¬ Announced (s.pc p) → s.owed p ≤ s.announced p
  owed_eq : exact → ∀ p, ¬ Announced (s.pc p) → s.owed p = s.announced p

variable {s t : ProcTree} {exact : Prop} {p q c : ℕ} {pc : ProcPc}

theorem inv_boot : boot.Inv exact := by
  have hcount : ∀ p, boot.owed p = boot.announced p := by
    intro p
    exact SemState.owed_new (by simp [boot]) (by simp [boot])
  refine ⟨?_, ?_, ?_, ?_, ?_, ?_, ?_, ?_, ?_, ?_, ?_, ?_, ?_, ?_, ?_, ?_, ?_⟩
  · simp [boot]
  · simp [boot]
  · simp [boot]
  · simp [boot]
  · simp [boot]
  · intro c hc
    by_cases hroot : c = rootProc <;> simp [boot, hroot] at hc ⊢
  · simp [boot]
  · intro c p hp hc
    simp [boot, hc] at hp
  · simp [boot]
  · intro c
    by_cases hroot : c = rootProc <;> simp [boot, hroot]
  · intro c hc
    have hroot : c ≠ rootProc := by
      rintro rfl
      simp [boot, rootProc] at hc
    simp [boot, hroot]
  · simp [boot]
  · simp [boot]
  · exact fun p => SemState.oneWaiter_new (by simp [boot])
  · exact fun _ p => SemState.prompt_new
  · exact fun p _ => (hcount p).le
  · exact fun _ p _ => hcount p

/-- The invariant does not look at the other fields. -/
theorem Inv.congr (h : s.Inv exact) (hnext : t.next = s.next) (hlife : t.life = s.life)
    (hparent : t.parent = s.parent) (hchildren : t.children = s.children)
    (hsem : t.childexit = s.childexit) (hpc : t.pc = s.pc) : t.Inv exact := by
  obtain ⟨n, pids, pid, code, killed, life, parent, children, sem, pc, waited⟩ := t
  obtain rfl : n = s.next := hnext
  obtain rfl : life = s.life := hlife
  obtain rfl : parent = s.parent := hparent
  obtain rfl : children = s.children := hchildren
  obtain rfl : sem = s.childexit := hsem
  obtain rfl : pc = s.pc := hpc
  exact ⟨h.nodup, h.parent, h.irrefl, h.root_notMem, h.root, h.started, h.starting, h.linked,
    h.unused, h.gone, h.fresh, h.empty, h.noFail, h.sem, h.prompt, h.owed_le, h.owed_eq⟩

/-- A process that has no parent yet is in no list and in no function. -/
theorem Inv.notMem_children (h : s.Inv exact) (hc : s.parent c = none) : c ∉ s.children p := by
  intro hmem
  rw [h.parent p c hmem] at hc
  cases hc

theorem Inv.outside_of_parent (h : s.Inv exact) (hc : s.parent c = none) : s.pc c = .outside := by
  refine h.unused c ?_
  by_contra hlife
  exact h.started c hlife hc

/-- Where a process is makes a difference only in `exit` and in `wait`. -/
def Plain (pc : ProcPc) : Prop :=
  pc ≠ .inSem ∧ pc ≠ .scan true ∧ pc ≠ .scan false ∧ ¬ Announced pc

/-- The count of announced children when `p` moves and its semaphore changes. -/
theorem announced_update (hp : Announced (s.pc p) ↔ Announced pc) (r : ℕ) :
    ((s.children r).countP fun c => Announced (Function.update s.pc p pc c)) = s.announced r := by
  refine List.countP_congr fun c _ => ?_
  simp only [decide_eq_true_eq]
  by_cases hc : c = p
  · simp [hc, hp]
  · simp [hc]

/-- `p` moves on in `wait`, or in a function that is none of `exit` and `wait`. -/
theorem Inv.move (h : s.Inv exact) {sem : SemState} (hfail : pc ≠ .scan false)
    (hann : Announced (s.pc p) ↔ Announced pc)
    (hgone : pc = .gone ↔ s.life p = .zombie) (hused : s.life p ≠ .unused)
    (hstart : ∀ c, pc = .starting c → s.parent c ≠ none) (hsem : sem.OneWaiter p pc)
    (hprompt : exact → sem.Prompt) (howed : sem.owed p pc = s.owed p) :
    ((s.setSem p sem).setPc p pc).Inv exact := by
  have howed' : ∀ r, ((s.setSem p sem).setPc p pc).owed r = s.owed r := by
    intro r
    by_cases hr : r = p
    · subst hr
      simpa [ProcTree.owed, setSem, setPc] using howed
    · simp [ProcTree.owed, setSem, setPc, hr]
  have hcount : ∀ r, ((s.setSem p sem).setPc p pc).announced r = s.announced r :=
    announced_update hann
  have hann' : ∀ r, Announced (((s.setSem p sem).setPc p pc).pc r) ↔ Announced (s.pc r) := by
    intro r
    by_cases hr : r = p
    · simp [setPc, hr, hann]
    · simp [setPc, setSem, hr]
  refine { nodup := h.nodup, parent := h.parent, irrefl := h.irrefl, root_notMem := h.root_notMem
           root := h.root, started := h.started, linked := h.linked, fresh := h.fresh, empty := h.empty
           starting := fun r c hc => ?_, unused := fun c hc => ?_, gone := fun c => ?_
           noFail := fun r => ?_, sem := fun r => ?_, prompt := fun hexact r => ?_
           owed_le := fun r hr => ?_, owed_eq := fun hexact r hr => ?_ }
  · by_cases hr : r = p
    · simp only [setPc, hr, Function.update_self] at hc
      exact hstart c hc
    · simp only [setPc, setSem, Function.update_of_ne hr] at hc
      exact h.starting r c hc
  · have hcp : c ≠ p := by
      rintro rfl
      exact hused hc
    simp only [setPc, setSem, Function.update_of_ne hcp]
    exact h.unused c hc
  · by_cases hcp : c = p
    · simpa [setPc, setSem, hcp] using hgone
    · simp only [setPc, setSem, Function.update_of_ne hcp]
      exact h.gone c
  · by_cases hr : r = p
    · simpa [setPc, hr] using hfail
    · simp only [setPc, setSem, Function.update_of_ne hr]
      exact h.noFail r
  · by_cases hr : r = p
    · subst hr
      simpa [setPc, setSem] using hsem
    · simp only [setPc, setSem, Function.update_of_ne hr]
      exact h.sem r
  · by_cases hr : r = p
    · subst hr
      simpa [setPc, setSem] using hprompt hexact
    · simp only [setPc, setSem, Function.update_of_ne hr]
      exact h.prompt hexact r
  · rw [howed', hcount]
    exact h.owed_le r fun hr' => hr ((hann' r).mpr hr')
  · rw [howed', hcount]
    exact h.owed_eq hexact r fun hr' => hr ((hann' r).mpr hr')

/-- `p` moves on in a function that is none of `exit` and `wait`. -/
theorem Inv.setPc (h : s.Inv exact) (hp : Plain (s.pc p)) (hpc : Plain pc)
    (hused : s.life p ≠ .unused) (hstart : ∀ c, pc = .starting c → s.parent c ≠ none) :
    (s.setPc p pc).Inv exact := by
  have hgone : s.life p ≠ .zombie := fun hz => hp.2.2.2 (.inr ((h.gone p).mpr hz))
  have hmove : ((s.setSem p (s.childexit p)).setPc p pc).Inv exact := h.move hpc.2.2.1 (iff_of_false hp.2.2.2 hpc.2.2.2)
    (iff_of_false (fun hg => hpc.2.2.2 (.inr hg)) hgone) hused hstart
    ((h.sem p).setPc hp.1 hpc.1) (fun hexact => h.prompt hexact p)
    (SemState.owed_setPc ⟨hp.1, hp.2.1⟩ ⟨hpc.1, hpc.2.1⟩)
  exact hmove.congr rfl rfl rfl rfl (Function.update_eq_self _ _).symm rfl

/-- A new process has no parent, no children and no permits. -/
theorem inv_create (h : s.Inv exact) : s.createProc.Inv exact := by
  have hnone : s.parent s.next = none := h.fresh _ (Nat.le_refl _)
  have hroot : rootProc ≠ s.next := by
    intro heq
    rw [← heq, h.root] at hnone
    cases hnone
  have hnot : ∀ r, s.next ∉ s.children r := fun r => h.notMem_children hnone
  have hout := h.outside_of_parent hnone
  -- nothing changes for the others
  have hpc : ∀ r, s.createProc.pc r = s.pc r := by
    intro r
    by_cases hr : r = s.next <;> simp [createProc, hr, hout]
  have hcount : ∀ r, r ≠ s.next →
      s.createProc.owed r = s.owed r ∧ s.createProc.announced r = s.announced r := by
    intro r hr
    constructor
    · simp [owed, createProc, hr]
    · simp only [announced, hpc]
      simp [createProc, hr]
  have hnew : s.createProc.owed s.next = s.createProc.announced s.next := by
    have howed : s.createProc.owed s.next = 0 := by
      simp only [owed, createProc, Function.update_self]
      exact SemState.owed_new (by simp) (by simp)
    rw [howed]
    simp [announced, createProc]
  refine { nodup := fun r => ?_, parent := fun r c hc => ?_, irrefl := fun r => ?_
           root_notMem := fun r => ?_, root := ?_, started := fun c hc => ?_
           starting := fun r c hc => ?_, linked := fun c r hc hcr hz => ?_
           unused := fun c hc => ?_, gone := fun c => ?_, fresh := fun c hc => ?_
           empty := fun r hr => ?_, noFail := fun r => ?_, sem := fun r => ?_
           prompt := fun hexact r => ?_
           owed_le := fun r hr => ?_, owed_eq := fun hexact r hr => ?_ }
  · by_cases hr : r = s.next
    · simp [createProc, hr]
    · simpa [createProc, hr] using h.nodup r
  · by_cases hr : r = s.next
    · simp [createProc, hr] at hc
    · simp only [createProc, Function.update_of_ne hr] at hc
      have hcn : c ≠ s.next := fun heq => hnot r (heq ▸ hc)
      simpa [createProc, hcn] using h.parent r c hc
  · by_cases hr : r = s.next
    · simp [createProc, hr]
    · simpa [createProc, hr] using h.irrefl r
  · by_cases hr : r = s.next
    · simp [createProc, hr]
    · simpa [createProc, hr] using h.root_notMem r
  · simpa [createProc, hroot] using h.root
  · by_cases hcn : c = s.next
    · simp [createProc, hcn] at hc
    · simp only [createProc, Function.update_of_ne hcn] at hc ⊢
      exact h.started c hc
  · rw [hpc] at hc
    have hcn : c ≠ s.next := fun heq => h.starting r c hc (heq ▸ hnone)
    simpa [createProc, hcn] using h.starting r c hc
  · by_cases hcn : c = s.next
    · simp [createProc, hcn] at hc
    · simp only [createProc, Function.update_of_ne hcn] at hc hz ⊢
      have hmem := h.linked c r hc hcr hz
      by_cases hr : r = s.next
      · rw [hr, h.empty _ (Nat.le_refl _)] at hmem
        exact absurd hmem List.not_mem_nil
      · simpa [hr] using hmem
  · rw [hpc]
    by_cases hcn : c = s.next
    · rw [hcn]
      exact hout
    · simp only [createProc, Function.update_of_ne hcn] at hc
      exact h.unused c hc
  · rw [hpc]
    by_cases hcn : c = s.next
    · simp [createProc, hcn, hout]
    · simp only [createProc, Function.update_of_ne hcn]
      exact h.gone c
  · have hcn : c ≠ s.next := by
      simp only [createProc] at hc
      omega
    simp only [createProc, Function.update_of_ne hcn] at hc ⊢
    exact h.fresh c (by omega)
  · simp only [createProc] at hr
    have hrn : r ≠ s.next := by omega
    simp only [createProc, Function.update_of_ne hrn]
    exact h.empty r (by omega)
  · rw [hpc]
    exact h.noFail r
  · by_cases hr : r = s.next
    · subst hr
      simp only [createProc, Function.update_self]
      exact SemState.oneWaiter_new (by simp)
    · simp only [createProc, Function.update_of_ne hr]
      exact h.sem r
  · by_cases hr : r = s.next
    · subst hr
      simp only [createProc, Function.update_self]
      exact SemState.prompt_new
    · simp only [createProc, Function.update_of_ne hr]
      exact h.prompt hexact r
  · by_cases hrn : r = s.next
    · subst hrn
      exact hnew.le
    · rw [hpc] at hr
      rw [(hcount r hrn).1, (hcount r hrn).2]
      exact h.owed_le r hr
  · by_cases hrn : r = s.next
    · subst hrn
      exact hnew
    · rw [hpc] at hr
      rw [(hcount r hrn).1, (hcount r hrn).2]
      exact h.owed_eq hexact r hr

theorem Inv.lt_next (h : s.Inv exact) (hp : s.parent p ≠ none) : p < s.next := by
  by_contra hle
  exact hp (h.fresh p (Nat.le_of_not_lt hle))

/-- `set_parent_to_this` and `start_proc`: a process that is not started becomes a
child. -/
theorem inv_link (h : s.Inv exact) (hq : s.parent q ≠ none) (hc : c < s.next)
    (hnone : s.parent c = none) : (s.link q c).Inv exact := by
  have hnot : ∀ r, c ∉ s.children r := fun r => h.notMem_children hnone
  have hcq : c ≠ q := by
    rintro rfl
    exact hq hnone
  have hroot : rootProc ≠ c := by
    rintro rfl
    rw [h.root] at hnone
    cases hnone
  have hparent : ∀ d, d ≠ c → (s.link q c).parent d = s.parent d := fun d hd =>
    Function.update_of_ne hd _ _
  have hmem : ∀ r d, d ∈ (s.link q c).children r ↔ (r = q ∧ d = c) ∨ d ∈ s.children r := by
    intro r d
    by_cases hr : r = q <;> simp [link, hr]
  have hcount : ∀ r, (s.link q c).announced r = s.announced r := by
    intro r
    by_cases hr : r = q
    · subst hr
      have hout : ¬ Announced (s.pc c) := by
        rw [h.outside_of_parent hnone]
        decide
      have hchildren : (s.link r c).children r = c :: s.children r := Function.update_self _ _ _
      rw [announced, hchildren]
      exact List.countP_cons_of_neg fun hann => hout (of_decide_eq_true hann)
    · have hchildren : (s.link q c).children r = s.children r := Function.update_of_ne hr _ _
      rw [announced, hchildren]
      rfl
  refine { nodup := fun r => ?_, parent := fun r d hd => ?_, irrefl := fun r hr => ?_
           root_notMem := fun r hr => ?_, root := ?_, started := fun d hd => ?_
           starting := fun r d hd => ?_, linked := fun d r hd hdr hz => ?_, unused := h.unused
           gone := h.gone, fresh := fun d hd => ?_, empty := fun r hr => ?_, noFail := h.noFail
           sem := h.sem, prompt := h.prompt, owed_le := fun r hr => ?_
           owed_eq := fun hexact r hr => ?_ }
  · by_cases hr : r = q
    · subst hr
      simpa [link] using ⟨hnot r, h.nodup r⟩
    · simpa [link, hr] using h.nodup r
  · rcases (hmem r d).mp hd with ⟨rfl, rfl⟩ | hd
    · simp [link]
    · rw [hparent d fun heq => hnot r (heq ▸ hd)]
      exact h.parent r d hd
  · rcases (hmem r r).mp hr with ⟨rfl, heq⟩ | hr
    · exact hcq heq.symm
    · exact h.irrefl r hr
  · rcases (hmem r rootProc).mp hr with ⟨-, heq⟩ | hr
    · exact hroot heq
    · exact h.root_notMem r hr
  · rw [hparent _ hroot]
    exact h.root
  · by_cases hdc : d = c
    · simp [link, hdc]
    · rw [hparent d hdc]
      exact h.started d hd
  · by_cases hdc : d = c
    · simp [link, hdc]
    · rw [hparent d hdc]
      exact h.starting r d hd
  · rw [hmem]
    by_cases hdc : d = c
    · subst hdc
      simp only [link, Function.update_self, Option.some.injEq] at hd
      exact .inl ⟨hd.symm, rfl⟩
    · rw [hparent d hdc] at hd
      exact .inr (h.linked d r hd hdr hz)
  · have hdc : d ≠ c := by
      rintro rfl
      exact absurd hc (Nat.not_lt.mpr hd)
    rw [hparent d hdc]
    exact h.fresh d hd
  · have hrq : r ≠ q := by
      rintro rfl
      exact absurd (h.lt_next hq) (Nat.not_lt.mpr hr)
    simp only [link, Function.update_of_ne hrq]
    exact h.empty r hr
  · rw [hcount]
    exact h.owed_le r hr
  · rw [hcount]
    exact h.owed_eq hexact r hr

/-- `activate_proc` of a new process. -/
theorem inv_activate (h : s.Inv exact) (hc : s.life c = .unused) (hparent : s.parent c ≠ none) :
    ({ s with life := Function.update s.life c .active } : ProcTree).Inv exact := by
  refine { h with started := fun d hd => ?_, linked := fun d r hd hdr hz => ?_
                  unused := fun d hd => ?_, gone := fun d => ?_ }
  · by_cases hdc : d = c
    · rw [hdc]
      exact hparent
    · simp only [Function.update_of_ne hdc] at hd
      exact h.started d hd
  · refine h.linked d r hd hdr ?_
    by_cases hdc : d = c
    · simp [hdc, hc]
    · simpa [hdc] using hz
  · by_cases hdc : d = c
    · simp [hdc] at hd
    · simp only [Function.update_of_ne hdc] at hd
      exact h.unused d hd
  · by_cases hdc : d = c
    · simp [hdc, h.unused c hc]
    · simp only [Function.update_of_ne hdc]
      exact h.gone d

/-- `_sched(ZOMBIE)`: the child is already announced. -/
theorem inv_schedZombie (h : s.Inv exact) (hp : s.pc p = .exiting) :
    ({ s.setPc p .gone with life := Function.update s.life p .zombie } : ProcTree).Inv exact := by
  have hused : s.life p ≠ .unused := by
    intro hunused
    rw [h.unused p hunused] at hp
    cases hp
  have hne : ∀ r, r ≠ p → (s.setPc p .gone).pc r = s.pc r := fun r hr => Function.update_of_ne hr _ _
  have hself : (s.setPc p .gone).pc p = .gone := Function.update_self _ _ _
  have hann : ∀ r, ¬ Announced ((s.setPc p .gone).pc r) → r ≠ p ∧ ¬ Announced (s.pc r) := by
    intro r hr
    have hrp : r ≠ p := by
      rintro rfl
      exact hr (.inr hself)
    rw [hne r hrp] at hr
    exact ⟨hrp, hr⟩
  have hcount : ∀ r, (s.setPc p .gone).announced r = s.announced r :=
    announced_update (iff_of_true (.inl hp) (.inr rfl))
  have howed : ∀ r, r ≠ p → (s.setPc p .gone).owed r = s.owed r := by
    intro r hr
    rw [owed, hne r hr]
    rfl
  refine { nodup := h.nodup, parent := h.parent, irrefl := h.irrefl, root_notMem := h.root_notMem
           root := h.root, started := fun c hc => ?_, starting := fun r c hc => ?_
           linked := fun c r hc hcr hz => ?_, unused := fun c hc => ?_, gone := fun c => ?_
           fresh := h.fresh, empty := h.empty, noFail := fun r => ?_, sem := fun r => ?_
           prompt := h.prompt, owed_le := fun r hr => ?_, owed_eq := fun hexact r hr => ?_ }
  · refine h.started c ?_
    by_cases hcp : c = p
    · rwa [hcp]
    · simpa [hcp] using hc
  · have hrp : r ≠ p := by
      rintro rfl
      rw [hself] at hc
      cases hc
    rw [hne r hrp] at hc
    exact h.starting r c hc
  · refine h.linked c r hc hcr ?_
    have hcp : c ≠ p := by
      rintro rfl
      simp at hz
    simpa [hcp] using hz
  · have hcp : c ≠ p := by
      rintro rfl
      simp at hc
    simp only [Function.update_of_ne hcp] at hc
    rw [hne c hcp]
    exact h.unused c hc
  · by_cases hcp : c = p
    · subst hcp
      simp [hself]
    · rw [hne c hcp]
      simpa [hcp] using h.gone c
  · by_cases hrp : r = p
    · subst hrp
      rw [hself]
      simp
    · rw [hne r hrp]
      exact h.noFail r
  · by_cases hrp : r = p
    · subst hrp
      rw [hself]
      exact (h.sem r).setPc (by simp [hp]) (by simp)
    · rw [hne r hrp]
      exact h.sem r
  · obtain ⟨hrp, hr⟩ := hann r hr
    exact (howed r hrp).trans_le ((h.owed_le r hr).trans_eq (by rw [← hcount r]; rfl))
  · obtain ⟨hrp, hr⟩ := hann r hr
    exact (howed r hrp).trans ((h.owed_eq hexact r hr).trans (by rw [← hcount r]; rfl))

/-! ### `exit` -/

/-- The loop of `exit`: `root_proc` is told of the children that are zombies already. -/
theorem adopt_eq (l : List ℕ) (h : (s.childexit rootProc).OneWaiter rootProc pc) :
    ∃ sem : SemState, s.adopt l = some { s with
        parent := fun c => if c ∈ l then some rootProc else s.parent c
        childexit := Function.update s.childexit rootProc sem } ∧
      sem.OneWaiter rootProc pc ∧
      sem.owed rootProc pc
        = (s.childexit rootProc).owed rootProc pc + l.countP (fun c => s.life c = .zombie) ∧
      ((s.childexit rootProc).Prompt → sem.Prompt) := by
  induction l generalizing s with
  | nil => exact ⟨_, by simp [adopt], h, by simp, id⟩
  | cons c cs ih =>
    have hparent : (fun d => if d ∈ cs then some rootProc
        else Function.update s.parent c (some rootProc) d)
        = fun d => if d ∈ c :: cs then some rootProc else s.parent d := by
      funext d
      by_cases hd : d = c <;> simp [hd]
    obtain ⟨s₁, hs₁⟩ : ∃ s₁ : ProcTree,
        s₁ = { s with parent := Function.update s.parent c (some rootProc) } := ⟨_, rfl⟩
    have hsem₁ : s₁.childexit = s.childexit := by rw [hs₁]
    have hlife₁ : s₁.life = s.life := by rw [hs₁]
    have hadopt : s.adopt (c :: cs) = if s.life c = .zombie
        then (s₁.post rootProc).bind fun s => s.adopt cs else s₁.adopt cs := by rw [hs₁]; rfl
    rw [hadopt]
    by_cases hz : s.life c = .zombie
    · obtain ⟨u, hpost, hu, howed, hprompt⟩ := h.post
      have hu' : (s₁.setSem rootProc u).childexit rootProc = u := by
        simp only [setSem, Function.update_self]
      have hlife' : (s₁.setSem rootProc u).life = s.life := hlife₁
      obtain ⟨sem, hrun, hsem, howed', hprompt'⟩ := ih (s := s₁.setSem rootProc u) (hu'.symm ▸ hu)
      rw [hu', hlife'] at howed'
      rw [hu'] at hprompt'
      refine ⟨sem, ?_, hsem, ?_, fun hp => hprompt' (hprompt hp)⟩
      · rw [if_pos hz, ProcTree.post, hsem₁, hpost]
        dsimp only [Option.map_some, Option.bind_some]
        rw [hrun, hs₁]
        simp only [setSem, Function.update_idem, hparent]
      · rw [howed', howed, List.countP_cons_of_pos (by simpa using hz)]
        push_cast
        omega
    · obtain ⟨sem, hrun, hsem, howed, hprompt⟩ := ih (s := s₁) (hsem₁.symm ▸ h)
      rw [hsem₁, hlife₁] at howed
      rw [hsem₁] at hprompt
      refine ⟨sem, ?_, hsem, ?_, hprompt⟩
      · rw [if_neg hz, hrun, hs₁, hparent]
      · rw [howed, List.countP_cons_of_neg (by simpa using hz)]

/-- The children of all processes after the section of `exit` of `p`. -/
theorem moveChildren_children (r : ℕ) : (s.moveChildren p).children r
    = if r = rootProc then mergeList (s.children p) (if p = rootProc then [] else s.children rootProc)
      else if r = p then [] else s.children r := by
  by_cases hr : r = rootProc
  · subst hr
    by_cases hp : p = rootProc
    · simp [moveChildren, hp]
    · simp [moveChildren, hp, Ne.symm hp]
  · by_cases hrp : r = p
    · subst hrp
      simp [moveChildren, hr]
    · simp [moveChildren, hr, hrp]

theorem mergeList_perm (cs rest : List ℕ) : (mergeList cs rest).Perm (cs ++ rest) := by
  unfold mergeList
  cases h : cs.getLast? with
  | none =>
    rw [List.getLast?_eq_none_iff.mp h]
    exact .refl _
  | some c =>
    obtain ⟨l, rfl⟩ := List.getLast?_eq_some_iff.mp h
    simp only [List.dropLast_concat, List.append_assoc]
    have hmid : (l ++ c :: rest).Perm (c :: (l ++ rest)) := List.perm_middle
    exact hmid.symm

/-- What the section of `exit` under `treelock` does: `q` is the parent of `p`. -/
theorem exit_eq (h : s.Inv exact) (hq : s.parent p = some q) (code : ℤ) :
    ∃ childexit : ℕ → SemState, s.exit p code = some { s with
        exitcode := Function.update s.exitcode p code
        parent := fun c => if c ∈ s.children p then some rootProc else s.parent c
        children := (s.moveChildren p).children
        childexit := childexit
        pc := Function.update s.pc p .exiting } ∧
      ∀ r, (childexit r).OneWaiter r (s.pc r) ∧ (childexit r).owed r (s.pc r) = s.owed r +
        ((if r = rootProc then s.zombies p else 0) + (if r = q then 1 else 0) : ℕ) ∧
        ((s.childexit r).Prompt → (childexit r).Prompt) := by
  obtain ⟨sem, hadopt, hsem, howed, hprompt⟩ := adopt_eq
    (s := { s with exitcode := Function.update s.exitcode p code }) (s.children p) (h.sem rootProc)
  -- the semaphores before the last post
  have hbefore : ∀ r, (Function.update s.childexit rootProc sem r).OneWaiter r (s.pc r) ∧
      (Function.update s.childexit rootProc sem r).owed r (s.pc r) = s.owed r +
        ((if r = rootProc then s.zombies p else 0 : ℕ) : ℤ) ∧
      ((s.childexit r).Prompt → (Function.update s.childexit rootProc sem r).Prompt) := by
    intro r
    by_cases hr : r = rootProc
    · subst hr
      rw [Function.update_self, if_pos rfl]
      exact ⟨hsem, howed, hprompt⟩
    · rw [Function.update_of_ne hr, if_neg hr]
      exact ⟨h.sem r, (add_zero _).symm, id⟩
  obtain ⟨u, hpost, hu, howedu, hpromptu⟩ := (hbefore q).1.post
  have hself : p ∉ s.children p := h.irrefl p
  refine ⟨Function.update (Function.update s.childexit rootProc sem) q u, ?_, fun r => ?_⟩
  · rw [ProcTree.exit, hadopt]
    simp only [Option.bind_eq_bind, Option.bind_some, moveChildren, if_neg hself, hq,
      ProcTree.post, hpost, Option.map_some, setPc, setSem, Option.pure_def]
  · by_cases hr : r = q
    · subst hr
      rw [Function.update_self, if_pos rfl]
      refine ⟨hu, ?_, fun hp => hpromptu ((hbefore r).2.2 hp)⟩
      rw [howedu, (hbefore r).2.1]
      push_cast
      omega
    · rw [Function.update_of_ne hr, if_neg hr]
      exact hbefore r

/-- In the list it is in, the process that exits is one more announced child. -/
theorem countP_exiting (hp : ¬ Announced (s.pc p)) {l : List ℕ} (hn : l.Nodup) :
    (l.countP fun c => Announced (Function.update s.pc p .exiting c))
      = l.countP (fun c => Announced (s.pc c)) + if p ∈ l then 1 else 0 := by
  induction l with
  | nil => rfl
  | cons c l ih =>
    obtain ⟨hc, hn⟩ := List.nodup_cons.mp hn
    rw [List.countP_cons, List.countP_cons, ih hn]
    by_cases hcp : c = p
    · subst hcp
      have hexiting : Announced .exiting := .inl rfl
      simp [hp, hc, hexiting]
    · have hmem : p ∈ c :: l ↔ p ∈ l := by simp [Ne.symm hcp]
      simp only [Function.update_of_ne hcp, hmem]
      omega

/-- No child of `p` is on its way: the zombies are all that were announced. -/
theorem zombies_eq (h : s.Inv exact) (hway : ∀ c ∈ s.children p, s.pc c ≠ .exiting) :
    s.zombies p = s.announced p := by
  refine List.countP_congr fun c hc => ?_
  simp only [decide_eq_true_eq, Announced, hway c hc, false_or]
  exact (h.gone c).symm

theorem zombies_le (h : s.Inv exact) : s.zombies p ≤ s.announced p := by
  refine List.countP_mono_left fun c _ hc => ?_
  simp only [decide_eq_true_eq] at hc ⊢
  exact .inr ((h.gone c).mpr hc)

/-- The announced children after the section of `exit`: those of `p` have gone to
`root_proc`, and `p` itself is one of them now. -/
theorem announced_exit (h : s.Inv exact) (hp : s.Runs p) (hq : s.parent p = some q)
    {r : ℕ} (hr : r ≠ p) :
    (((s.moveChildren p).children r).countP fun c =>
      Announced (Function.update s.pc p .exiting c))
      = s.announced r + ((if r = rootProc then s.announced p else 0) + if r = q then 1 else 0) := by
  have hout : ¬ Announced (s.pc p) := by
    rw [hp.2]
    decide
  have hmem : ∀ u, u ≠ p → p ≠ rootProc → (p ∈ s.children u ↔ u = q) := by
    intro u _ hroot
    constructor
    · intro hu
      exact Option.some.inj ((h.parent u p hu).symm.trans hq)
    · rintro rfl
      exact h.linked p u hq hroot (by simp [hp.1])
  have hcount : ∀ u, u ≠ p → p ≠ rootProc →
      ((s.children u).countP fun c => Announced (Function.update s.pc p .exiting c))
        = s.announced u + if u = q then 1 else 0 := by
    intro u hu hroot
    rw [countP_exiting hout (h.nodup u), announced]
    simp only [hmem u hu hroot]
  rw [moveChildren_children]
  by_cases hroot : r = rootProc
  · subst hroot
    have hchild : ((s.children p).countP fun c => Announced (Function.update s.pc p .exiting c))
        = s.announced p := by
      rw [countP_exiting hout (h.nodup p), if_neg (h.irrefl p)]
      rfl
    rw [if_pos rfl, if_pos rfl, if_neg (Ne.symm hr), (mergeList_perm _ _).countP_eq,
      List.countP_append, hchild, hcount rootProc hr (Ne.symm hr)]
    omega
  · rw [if_neg hroot, if_neg hroot, if_neg hr]
    by_cases hproot : p = rootProc
    · -- `root_proc` is its own parent and in no list
      have hpr : p ∉ s.children r := by
        rw [hproot]
        exact h.root_notMem r
      have hrq : r ≠ q := by
        rintro rfl
        rw [hproot, h.root] at hq
        exact hroot (Option.some.inj hq).symm
      rw [countP_exiting hout (h.nodup r), if_neg hpr, if_neg hrq]
      rfl
    · rw [hcount r hr hproot]
      omega

/-- Who is in which list after the section of `exit`. -/
theorem mem_moveChildren (r c : ℕ) : c ∈ (s.moveChildren p).children r ↔
    (r = rootProc ∧ c ∈ s.children p) ∨ (r ≠ p ∧ c ∈ s.children r) := by
  rw [moveChildren_children]
  by_cases hroot : r = rootProc
  · subst hroot
    by_cases hp : p = rootProc
    · simp [hp, (mergeList_perm _ _).mem_iff]
    · simp [hp, Ne.symm hp, (mergeList_perm _ _).mem_iff]
  · by_cases hr : r = p
    · subst hr
      simp [hroot]
    · simp [hroot, hr]

/-- `exit`: under `exact` no child of `p` may be on its way. -/
theorem inv_exit (h : s.Inv exact) (hp : s.Runs p) {code : ℤ}
    (hexact : exact → ∀ c ∈ s.children p, s.pc c ≠ .exiting) (ht : s.exit p code = some t) :
    t.Inv exact := by
  have hused : s.life p ≠ .unused := by simp [hp.1]
  obtain ⟨q, hq⟩ := Option.ne_none_iff_exists'.mp (h.started p hused)
  obtain ⟨childexit, hrun, hsem⟩ := exit_eq h hq code
  obtain rfl := Option.some.inj (hrun.symm.trans ht)
  have hroot : rootProc < s.next := h.lt_next (by simp [h.root])
  have hpc : ∀ r, r ≠ p → Function.update s.pc p .exiting r = s.pc r := fun r hr =>
    Function.update_of_ne hr _ _
  -- the children of `p` have the new parent, and the others have theirs
  have hother : ∀ r c, r ≠ p → c ∈ s.children r → c ∉ s.children p := by
    intro r c hr hc hcp
    exact hr (Option.some.inj ((h.parent r c hc).symm.trans (h.parent p c hcp)))
  have hlive : ∀ r, ¬ Announced (Function.update s.pc p .exiting r) →
      r ≠ p ∧ ¬ Announced (s.pc r) := by
    intro r hr
    have hrp : r ≠ p := by
      rintro rfl
      exact hr (.inl (Function.update_self _ _ _))
    rw [hpc r hrp] at hr
    exact ⟨hrp, hr⟩
  have howed : ∀ r, r ≠ p → (childexit r).owed r (Function.update s.pc p .exiting r) = s.owed r +
      ((if r = rootProc then s.zombies p else 0) + (if r = q then 1 else 0) : ℕ) := by
    intro r hr
    rw [hpc r hr]
    exact (hsem r).2.1
  refine { nodup := fun r => ?_, parent := fun r c hc => ?_, irrefl := fun r hr => ?_
           root_notMem := fun r hr => ?_, root := ?_, started := fun c hc => ?_
           starting := fun r c hc => ?_, linked := fun c r hc hcr hz => ?_
           unused := fun c hc => ?_, gone := fun c => ?_, fresh := fun c hc => ?_
           empty := fun r hr => ?_, noFail := fun r => ?_, sem := fun r => ?_
           prompt := fun hex r => (hsem r).2.2 (h.prompt hex r)
           owed_le := fun r hr => ?_, owed_eq := fun hex r hr => ?_ }
  · dsimp only
    rw [moveChildren_children]
    by_cases hr : r = rootProc
    · rw [if_pos hr, (mergeList_perm _ _).nodup_iff, List.nodup_append]
      refine ⟨h.nodup p, ?_, fun a ha b hb => ?_⟩
      · split
        · exact List.nodup_nil
        · exact h.nodup rootProc
      · split at hb
        · exact absurd hb List.not_mem_nil
        · rename_i hpr
          rintro rfl
          exact hother rootProc a (Ne.symm hpr) hb ha
    · rw [if_neg hr]
      split
      · exact List.nodup_nil
      · exact h.nodup r
  · dsimp only at hc ⊢
    rcases (mem_moveChildren r c).mp hc with ⟨rfl, hcp⟩ | ⟨hr, hc⟩
    · rw [if_pos hcp]
    · rw [if_neg (hother r c hr hc)]
      exact h.parent r c hc
  · rcases (mem_moveChildren r r).mp hr with ⟨rfl, hr⟩ | ⟨-, hr⟩
    · exact h.root_notMem p hr
    · exact h.irrefl r hr
  · rcases (mem_moveChildren r rootProc).mp hr with ⟨-, hr⟩ | ⟨-, hr⟩
    · exact h.root_notMem p hr
    · exact h.root_notMem r hr
  · dsimp only
    rw [if_neg (h.root_notMem p)]
    exact h.root
  · dsimp only
    split
    · simp
    · exact h.started c hc
  · have hrp : r ≠ p := by
      rintro rfl
      simp at hc
    simp only [hpc r hrp] at hc
    dsimp only
    split
    · simp
    · exact h.starting r c hc
  · refine (mem_moveChildren r c).mpr ?_
    dsimp only at hc
    split at hc
    · rename_i hcp
      exact .inl ⟨(Option.some.inj hc).symm, hcp⟩
    · rename_i hcp
      have hmem := h.linked c r hc hcr hz
      refine .inr ⟨?_, hmem⟩
      rintro rfl
      exact hcp hmem
  · have hcp : c ≠ p := by
      rintro rfl
      exact hused hc
    simp only [hpc c hcp]
    exact h.unused c hc
  · by_cases hcp : c = p
    · simp [hcp, hp.1]
    · simp only [hpc c hcp]
      exact h.gone c
  · dsimp only
    have hcp : c ∉ s.children p := by
      intro hmem
      have hparent := h.parent p c hmem
      rw [h.fresh c hc] at hparent
      cases hparent
    rw [if_neg hcp]
    exact h.fresh c hc
  · dsimp only at hr ⊢
    rw [moveChildren_children]
    have hrr : r ≠ rootProc := by
      rintro rfl
      exact absurd hroot (Nat.not_lt.mpr hr)
    rw [if_neg hrr]
    split
    · rfl
    · exact h.empty r hr
  · by_cases hrp : r = p
    · simp [hrp]
    · simp only [hpc r hrp]
      exact h.noFail r
  · by_cases hrp : r = p
    · subst hrp
      simp only [Function.update_self]
      exact (hsem r).1.setPc (by simp [hp.2]) (by simp)
    · simp only [hpc r hrp]
      exact (hsem r).1
  · obtain ⟨hrp, hlives⟩ := hlive r hr
    have hcount := announced_exit h hp hq hrp
    have hle := h.owed_le r hlives
    have hz := zombies_le h (p := p)
    refine (howed r hrp).trans_le ?_
    rw [announced, hcount]
    split <;> push_cast <;> omega
  · obtain ⟨hrp, hlives⟩ := hlive r hr
    have hcount := announced_exit h hp hq hrp
    have heq := h.owed_eq hex r hlives
    refine (howed r hrp).trans ?_
    rw [announced, hcount, heq, zombies_eq h (hexact hex)]
    push_cast
    omega

/-! ### `wait` and `kill` -/

theorem plain_of_runs (hp : s.Runs p) : Plain (s.pc p) := by
  rw [hp.2]
  exact ⟨by simp, by simp, by simp, by decide⟩

theorem Inv.used_of_pc (h : s.Inv exact) (hp : s.pc p ≠ .outside) : s.life p ≠ .unused := fun hl =>
  hp (h.unused p hl)

theorem inv_wait (h : s.Inv exact) (hp : s.Runs p) : (s.wait p).Inv exact := by
  unfold wait
  split
  · exact h.congr rfl rfl rfl rfl rfl rfl
  · exact h.setPc (plain_of_runs hp) ⟨by simp, by simp, by simp, by decide⟩ (by simp [hp.1])
      (by simp)

theorem inv_waitSem (h : s.Inv exact) (ht : s.step (.waitSem p) = some t) : t.Inv exact := by
  simp only [step] at ht
  split at ht
  · rename_i hp
    cases ht
    have hused := h.used_of_pc (p := p) (by simp [hp])
    have hgone : s.life p ≠ .zombie := fun hz => by
      rw [(h.gone p).mpr hz] at hp
      cases hp
    have hsem := h.sem p
    rw [hp] at hsem
    obtain ⟨hone, howed, hprompt⟩ := hsem.wait rfl rfl
    refine h.move ?_ (iff_of_false ?_ ?_) (iff_of_false ?_ hgone) hused ?_ hone
      (fun hex => hprompt (h.prompt hex p)) ?_
    · split <;> simp
    · rw [hp]
      decide
    · split <;> decide
    · split <;> simp
    · split <;> simp
    · rw [howed, owed, hp]
  · cases ht

/-- The return of `wait_sem` with the permit. -/
theorem inv_resume (h : s.Inv exact) (hup : (s.childexit p).up p = true)
    (ht : s.step (.resume p) = some t) : t.Inv exact := by
  simp only [step] at ht
  split at ht
  · rename_i hp
    obtain ⟨sem, hstep, rfl⟩ := Option.map_eq_some_iff.mp ht
    have hused := h.used_of_pc (p := p) (by simp [hp])
    have hgone : s.life p ≠ .zombie := fun hz => by
      rw [(h.gone p).mpr hz] at hp
      cases hp
    have hsem := h.sem p
    rw [hp] at hsem
    obtain ⟨hone, howed, hprompt⟩ := hsem.resume hup hstep
    rw [hup]
    refine h.move (by simp) (iff_of_false ?_ (by decide)) (iff_of_false (by simp) hgone) hused
      (by simp) hone (fun hex => hprompt (h.prompt hex p)) ?_
    · rw [hp]
      decide
    · rw [howed, owed, hp]
  · cases ht

/-- What the last section of `wait` does when it does not panic. -/
theorem waitScan_cases (ht : s.waitScan p = some t) : ∃ c ∈ s.children p, s.life c = .zombie ∧
    t = { s.setPc p .outside with
      children := Function.update s.children p ((s.children p).erase c)
      pids := s.pids.release (s.pid c).toNat
      waited := Function.update s.waited p (s.pid c, s.exitcode c) } := by
  rw [waitScan] at ht
  split at ht
  · cases ht
  · rename_i c hc
    split at ht
    · cases ht
      have hz := List.find?_some hc
      exact ⟨c, List.mem_of_find?_eq_some hc, of_decide_eq_true hz, rfl⟩
    · cases ht

/-- The permit that `wait` has taken is used up with the zombie that it removes. -/
theorem inv_waitScan (h : s.Inv exact) {ret : Bool} (hp : s.pc p = .scan ret)
    (ht : s.waitScan p = some t) : t.Inv exact := by
  obtain rfl : ret = true := by
    cases ret with
    | true => rfl
    | false => exact absurd hp (h.noFail p)
  obtain ⟨c, hc, hz, rfl⟩ := waitScan_cases ht
  have hused := h.used_of_pc (p := p) (by simp [hp])
  have hout : ¬ Announced (s.pc p) := by
    rw [hp]
    decide
  have hpc : ∀ r, r ≠ p → Function.update s.pc p .outside r = s.pc r := fun r hr =>
    Function.update_of_ne hr _ _
  have hann : ∀ r, Announced (Function.update s.pc p .outside r) ↔ Announced (s.pc r) := by
    intro r
    by_cases hr : r = p
    · subst hr
      rw [Function.update_self]
      exact iff_of_false (by decide) hout
    · rw [hpc r hr]
  have hsub : ∀ r, (Function.update s.children p ((s.children p).erase c) r).Sublist
      (s.children r) := by
    intro r
    by_cases hr : r = p
    · subst hr
      rw [Function.update_self]
      exact List.erase_sublist
    · rw [Function.update_of_ne hr]
  have hcann : Announced (s.pc c) := .inr ((h.gone c).mpr hz)
  -- one permit less and one announced child less
  have hcount : ∀ r, ((Function.update s.children p ((s.children p).erase c) r).countP fun d =>
      Announced (Function.update s.pc p .outside d)) + (if r = p then 1 else 0) = s.announced r := by
    intro r
    simp only [hann]
    by_cases hr : r = p
    · subst hr
      have hpos : 0 < (s.children r).countP fun d => Announced (s.pc d) :=
        List.countP_pos_iff.mpr ⟨c, hc, by simpa using hcann⟩
      rw [Function.update_self, List.countP_erase, if_pos ⟨hc, by simpa using hcann⟩, if_pos rfl,
        announced]
      omega
    · rw [Function.update_of_ne hr, if_neg hr]
      rfl
  have howed : ∀ r, (s.childexit r).owed r (Function.update s.pc p .outside r)
      + ((if r = p then 1 else 0 : ℕ) : ℤ) = s.owed r := by
    intro r
    by_cases hr : r = p
    · subst hr
      rw [Function.update_self, if_pos rfl, owed, hp, SemState.owed_scan,
        SemState.owed_of_ne (by simp) (by simp)]
      rfl
    · rw [hpc r hr, if_neg hr]
      exact add_zero _
  refine { nodup := fun r => (h.nodup r).sublist (hsub r)
           parent := fun r d hd => h.parent r d ((hsub r).subset hd)
           irrefl := fun r hr => h.irrefl r ((hsub r).subset hr)
           root_notMem := fun r hr => h.root_notMem r ((hsub r).subset hr)
           root := h.root, started := h.started, starting := fun r d hd => ?_
           linked := fun d r hd hdr hlife => ?_, unused := fun d hd => ?_, gone := fun d => ?_
           fresh := h.fresh, empty := fun r hr => ?_, noFail := fun r => ?_, sem := fun r => ?_
           prompt := h.prompt, owed_le := fun r hr => ?_, owed_eq := fun hex r hr => ?_ }
  · have hrp : r ≠ p := by
      rintro rfl
      simp [setPc] at hd
    simp only [setPc, hpc r hrp] at hd
    exact h.starting r d hd
  · have hmem := h.linked d r hd hdr hlife
    by_cases hr : r = p
    · subst hr
      simp only [Function.update_self]
      refine (List.mem_erase_of_ne ?_).mpr hmem
      rintro rfl
      exact hlife hz
    · simpa only [Function.update_of_ne hr] using hmem
  · have hdp : d ≠ p := by
      rintro rfl
      exact hused hd
    simp only [setPc, hpc d hdp]
    exact h.unused d hd
  · by_cases hdp : d = p
    · subst hdp
      have hlife : s.life d ≠ .zombie := fun hz' => hout (.inr ((h.gone d).mpr hz'))
      simp [setPc, hlife]
    · simp only [setPc, hpc d hdp]
      exact h.gone d
  · have hnil := hsub r
    rw [h.empty r hr] at hnil
    exact List.sublist_nil.mp hnil
  · by_cases hrp : r = p
    · simp [setPc, hrp]
    · simp only [setPc, hpc r hrp]
      exact h.noFail r
  · by_cases hrp : r = p
    · subst hrp
      simp only [setPc, Function.update_self]
      exact (h.sem r).setPc (by simp [hp]) (by simp)
    · simp only [setPc, hpc r hrp]
      exact h.sem r
  · have hle := h.owed_le r fun hr' => hr ((hann r).mpr hr')
    rw [← howed r, ← hcount r] at hle
    exact Int.le_of_add_le_add_right (hle.trans_eq (Nat.cast_add _ _))
  · have heq := h.owed_eq hex r fun hr' => hr ((hann r).mpr hr')
    rw [← howed r, ← hcount r] at heq
    exact add_right_cancel (heq.trans (Nat.cast_add _ _))

/-- `start_proc` up to the release of `treelock`. -/
theorem inv_start (h : s.Inv exact) (hp : s.Runs p) (hc : c < s.next) :
    ((if s.parent c = none then s.link rootProc c else s).setPc p (.starting c)).Inv exact := by
  have hpc : Plain (.starting c) := ⟨by simp, by simp, by simp, by simp [Announced]⟩
  have hused : s.life p ≠ .unused := by simp [hp.1]
  split
  · rename_i hnone
    have hlink : (s.link rootProc c).Inv exact := inv_link h (by simp [h.root]) hc hnone
    refine hlink.setPc (plain_of_runs hp) hpc hused fun d hd => ?_
    obtain rfl := ProcPc.starting.inj hd
    simp [link]
  · rename_i hsome
    refine h.setPc (plain_of_runs hp) hpc hused fun d hd => ?_
    obtain rfl := ProcPc.starting.inj hd
    exact hsome

/-- The rest of `start_proc`. -/
theorem inv_activateProc (h : s.Inv exact) (hp : s.pc p = .starting c) :
    (if (s.setPc p .outside).life c = .unused
      then { s.setPc p .outside with
        life := Function.update (s.setPc p .outside).life c .active }
      else s.setPc p .outside).Inv exact := by
  have hplain : Plain (s.pc p) := by
    rw [hp]
    exact ⟨by simp, by simp, by simp, by simp [Announced]⟩
  have hset : (s.setPc p .outside).Inv exact :=
    h.setPc hplain ⟨by simp, by simp, by simp, by decide⟩ (h.used_of_pc (by simp [hp])) (by simp)
  split
  · rename_i hc
    exact inv_activate hset hc (h.starting p c hp)
  · exact hset

theorem inv_kill (h : s.Inv exact) (hp : s.Runs p) (pid : ℤ) : (s.kill p pid).Inv exact := by
  unfold kill
  split
  · split
    · exact h
    · rename_i c _
      have hset : (s.setPc p (.killing c)).Inv exact := h.setPc (plain_of_runs hp)
        ⟨by simp, by simp, by simp, by simp [Announced]⟩ (by simp [hp.1]) (by simp)
      exact hset.congr rfl rfl rfl rfl rfl rfl
  · exact h

/-- A semaphore changes, and nothing is used up. -/
theorem Inv.setSem (h : s.Inv exact) {sem : SemState} (hsem : sem.OneWaiter c (s.pc c))
    (hprompt : exact → sem.Prompt) (howed : sem.owed c (s.pc c) = s.owed c) :
    (s.setSem c sem).Inv exact := by
  have howed' : ∀ r, (s.setSem c sem).owed r = s.owed r := by
    intro r
    by_cases hr : r = c
    · subst hr
      simpa [ProcTree.owed, ProcTree.setSem] using howed
    · simp [ProcTree.owed, ProcTree.setSem, hr]
  refine { h with
    sem := fun r => ?_
    prompt := fun hex r => ?_
    owed_le := fun r hr => (howed' r).trans_le (h.owed_le r hr)
    owed_eq := fun hex r hr => (howed' r).trans (h.owed_eq hex r hr) }
  · by_cases hr : r = c
    · subst hr
      simpa [ProcTree.setSem] using hsem
    · simp only [ProcTree.setSem, Function.update_of_ne hr]
      exact h.sem r
  · by_cases hr : r = c
    · subst hr
      simpa [ProcTree.setSem] using hprompt hex
    · simp only [ProcTree.setSem, Function.update_of_ne hr]
      exact h.prompt hex r

/-- `alert_proc` of a process that may be asleep in `wait`. -/
theorem inv_alert (h : s.Inv exact) (hexact : ¬ exact) (hp : s.pc p = .killing c) :
    ((s.setSem c ((s.childexit c).alert c)).setPc p .outside).Inv exact := by
  have hplain : Plain (s.pc p) := by
    rw [hp]
    exact ⟨by simp, by simp, by simp, by simp [Announced]⟩
  have hset : (s.setPc p .outside).Inv exact :=
    h.setPc hplain ⟨by simp, by simp, by simp, by decide⟩ (h.used_of_pc (by simp [hp])) (by simp)
  obtain ⟨hone, howed⟩ := (hset.sem c).alert c
  exact hset.setSem hone (fun hex => absurd hex hexact) howed

/-! ### Runs -/

/-- A process that comes back from `wait_sem` has been given a permit, and not all of its
children that have exited are on their way when it looks for a zombie.  The pid of the
zombie that it finds is one that `get_pid` gave. -/
def Timely (s : ProcTree) : ProcCall → Prop
  | .resume p => (s.childexit p).up p = true
  | .scan p => ((∃ c ∈ s.children p, s.pc c = .exiting) → ∃ c ∈ s.children p, s.life c = .zombie) ∧
      ∀ c ∈ (s.children p).find? fun c => decide (s.life c = .zombie),
        0 ≤ s.pid c ∧ s.pid c < maxPid
  | _ => True

instance (s : ProcTree) (l : ProcCall) : Decidable (s.Timely l) := by
  unfold Timely
  split <;> infer_instance

/-- Nobody is killed, `root_proc` does not exit, and no process exits while one of its
children is on its way. -/
def Orderly (s : ProcTree) : ProcCall → Prop
  | .exit p _ => p ≠ rootProc ∧ ∀ c ∈ s.children p, s.pc c ≠ .exiting
  | .kill _ _ => False
  | .alert _ => False
  | _ => True

instance (s : ProcTree) (l : ProcCall) : Decidable (s.Orderly l) := by
  unfold Orderly
  split <;> infer_instance

/-- Every section keeps the invariant. -/
theorem inv_step {l : ProcCall} (h : s.Inv exact) (hup : ∀ p, l = .resume p → s.Timely l)
    (hexact : exact → s.Orderly l) (ht : s.step l = some t) : t.Inv exact := by
  cases l with
  | create =>
    cases ht
    exact inv_create h
  | setParent p c =>
    simp only [step] at ht
    split at ht
    · rename_i hp
      cases ht
      exact inv_link h (h.started p (by simp [hp.1.1])) hp.2.1 hp.2.2
    · cases ht
  | start p c =>
    simp only [step] at ht
    split at ht
    · rename_i hp
      cases ht
      exact inv_start h hp.1 hp.2.1
    · cases ht
  | activate p =>
    simp only [step] at ht
    split at ht
    · rename_i c hp
      cases ht
      exact inv_activateProc h hp
    · cases ht
  | exit p code =>
    simp only [step] at ht
    split at ht
    · rename_i hp
      exact inv_exit h hp (fun hex => (hexact hex).2) ht
    · cases ht
  | schedZombie p =>
    simp only [step] at ht
    split at ht
    · rename_i hp
      cases ht
      exact inv_schedZombie h hp
    · cases ht
  | wait p =>
    simp only [step] at ht
    split at ht
    · rename_i hp
      cases ht
      exact inv_wait h hp
    · cases ht
  | waitSem p => exact inv_waitSem h ht
  | resume p => exact inv_resume h (hup p rfl) ht
  | scan p =>
    simp only [step] at ht
    split at ht
    · rename_i ret hp
      exact inv_waitScan h hp ht
    · cases ht
  | kill p pid =>
    simp only [step] at ht
    split at ht
    · rename_i hp
      cases ht
      exact inv_kill h hp pid
    · cases ht
  | alert p =>
    simp only [step] at ht
    split at ht
    · rename_i c hp
      cases ht
      exact inv_alert h (fun hex => hexact hex) hp
    · cases ht

/-- In a timely run nothing is owed for which there is no announced child. -/
theorem inv_of_timely (h : procSystem.Reachable Timely s) : s.Inv False := by
  refine h.induction (fun u hu => ?_) fun u l v hu hl hv =>
    inv_step hu (fun _ _ => hl) (fun hfalse => hfalse.elim) hv
  obtain rfl : u = boot := hu
  exact inv_boot

/-- A process that has a permit has an announced child. -/
theorem exists_announced (h : s.Inv exact) (hp : s.pc p = .scan true) :
    ∃ c ∈ s.children p, Announced (s.pc c) := by
  have hsem := h.sem p
  rw [hp] at hsem
  have hle := h.owed_le p (by rw [hp]; decide)
  have hpos := hsem.owed_scan_pos
  rw [owed, hp] at hle
  have hcount : 0 < s.announced p := by omega
  obtain ⟨c, hc, hann⟩ := List.countP_pos_iff.mp hcount
  exact ⟨c, hc, of_decide_eq_true hann⟩

/-- The last section of `wait` finds a zombie exactly when it is timely. -/
theorem isSome_waitScan_iff (h : s.Inv exact) {ret : Bool} (hp : s.pc p = .scan ret) :
    (s.waitScan p).isSome = true ↔ s.Timely (.scan p) := by
  obtain rfl : ret = true := by
    cases ret with
    | true => rfl
    | false => exact absurd hp (h.noFail p)
  rw [waitScan, Timely]
  cases hfind : (s.children p).find? fun c => decide (s.life c = .zombie) with
  | none =>
    have hnone := List.find?_eq_none.mp hfind
    refine iff_of_false (by simp) fun htimely => ?_
    -- the announced child is on its way, so the condition gives a zombie
    obtain ⟨c, hc, hann⟩ := exists_announced h hp
    have hz : ∃ c ∈ s.children p, s.life c = .zombie := by
      rcases hann with hway | hgone
      · exact htimely.1 ⟨c, hc, hway⟩
      · exact ⟨c, hc, (h.gone c).mp hgone⟩
    obtain ⟨d, hd, hz⟩ := hz
    exact hnone d hd (decide_eq_true hz)
  | some c =>
    have hz : s.life c = .zombie := by simpa using List.find?_some hfind
    have hc := List.mem_of_find?_eq_some hfind
    dsimp only
    constructor
    · intro hsome
      refine ⟨fun _ => ⟨c, hc, hz⟩, fun d hd => ?_⟩
      obtain rfl := Option.some.inj hd
      by_contra hpid
      rw [if_neg hpid] at hsome
      cases hsome
    · intro htimely
      rw [if_pos (htimely.2 c rfl)]
      rfl

/-- Not inside `exit` or `wait`. -/
def Quiet (pc : ProcPc) : Prop :=
  pc ≠ .exiting ∧ pc ≠ .waiting ∧ pc ≠ .inSem ∧ pc ≠ .scan true ∧ pc ≠ .scan false

instance (pc : ProcPc) : Decidable (Quiet pc) := inferInstanceAs (Decidable (_ ∧ _))

end ProcTree

/-- **`wait`** in a run of timely steps: without children it returns -1, and else it
comes back from `wait_sem` with a permit and removes a zombie, whose pid and exit code
it returns.  A step that is not timely is an interrupted `wait_sem` or a panic. -/
theorem wait_returns (s : ProcTree) (h : procSystem.Reachable ProcTree.Timely s) (p : ℕ) :
    (∀ t, s.step (.wait p) = some t → if s.children p = [] then
      t.pc p = .outside ∧ (t.waited p).1 = -1 else t.pc p = .waiting) ∧
    (∀ t, s.step (.resume p) = some t → (t.pc p = .scan true ↔ s.Timely (.resume p))) ∧
    ∀ ret, s.pc p = .scan ret → ret = true ∧
      ((s.step (.scan p)).isSome = true ↔ s.Timely (.scan p)) ∧
      ∀ t, s.step (.scan p) = some t → ∃ c ∈ s.children p, s.life c = .zombie ∧
        t.pc p = .outside ∧ t.waited p = (s.pid c, s.exitcode c) ∧
        t.children p = (s.children p).erase c := by
  have hi := ProcTree.inv_of_timely h
  refine ⟨fun t ht => ?_, fun t ht => ?_, fun ret hp => ⟨?_, ?_, fun t ht => ?_⟩⟩
  · simp only [ProcTree.step] at ht
    split at ht
    · rename_i hruns
      cases ht
      rw [ProcTree.wait]
      split
      · exact ⟨hruns.2, by simp⟩
      · exact Function.update_self _ _ _
    · cases ht
  · simp only [ProcTree.step] at ht
    split at ht
    · obtain ⟨sem, -, rfl⟩ := Option.map_eq_some_iff.mp ht
      simp [ProcTree.setPc, ProcTree.Timely]
    · cases ht
  · cases ret with
    | true => rfl
    | false => exact absurd hp (hi.noFail p)
  · simp only [ProcTree.step, hp]
    exact ProcTree.isSome_waitScan_iff hi hp
  · simp only [ProcTree.step, hp] at ht
    obtain ⟨c, hc, hz, rfl⟩ := ProcTree.waitScan_cases ht
    exact ⟨c, hc, hz, Function.update_self _ _ _, Function.update_self _ _ _,
      Function.update_self _ _ _⟩

/-- `root_proc` sleeps in `wait` and is woken by the exit of its child. -/
theorem wait_returns_one : ∃ s : ProcTree, s.pc 0 = .scan true ∧ s.Timely (.scan 0) ∧
    (s.step (.scan 0)).isSome = true := by
  have hrun : (procSystem.exec ProcTree.Timely .boot
      [.create, .start 0 1, .activate 0, .wait 0, .waitSem 0, .exit 1 7, .schedZombie 1,
        .resume 0]).map (fun s => (s.pc 0, decide (s.Timely (.scan 0))))
      = some (.scan true, true) := by
    decide
  obtain ⟨s, hs, heq⟩ := Option.map_eq_some_iff.mp hrun
  obtain ⟨hpc, htimely⟩ := Prod.mk.inj heq
  have hwait := (wait_returns s ⟨_, rfl, System.leads_of_exec hs⟩ 0).2.2 true hpc
  exact ⟨s, hpc, of_decide_eq_true htimely, hwait.2.1.mpr (of_decide_eq_true htimely)⟩

/-- `wait` panics when the child that has posted is not a zombie yet, and when it was
interrupted by `kill`. -/
theorem wait_panics :
    (∃ s, procSystem.Reachable (fun _ _ => True) s ∧ s.pc 0 = .scan true ∧
      s.step (.scan 0) = none) ∧
    ∃ s, procSystem.Reachable (fun _ _ => True) s ∧ s.pc 1 = .scan false ∧
      s.step (.scan 1) = none := by
  constructor
  · have hrun : (procSystem.exec (fun _ _ => True) .boot
        [.create, .start 0 1, .activate 0, .wait 0, .exit 1 7, .waitSem 0]).map
          (fun s => (s.pc 0, (s.step (.scan 0)).isNone)) = some (.scan true, true) := by
      decide
    obtain ⟨s, hs, heq⟩ := Option.map_eq_some_iff.mp hrun
    exact ⟨s, ⟨_, rfl, System.leads_of_exec hs⟩, (Prod.mk.inj heq).1,
      Option.isNone_iff_eq_none.mp (Prod.mk.inj heq).2⟩
  · have hrun : (procSystem.exec (fun _ _ => True) .boot
        [.create, .start 0 1, .activate 0, .create, .setParent 1 2, .start 1 2, .activate 1,
          .wait 1, .waitSem 1, .kill 0 1, .alert 0, .resume 1]).map
          (fun s => (s.pc 1, (s.step (.scan 1)).isNone)) = some (.scan false, true) := by
      decide
    obtain ⟨s, hs, heq⟩ := Option.map_eq_some_iff.mp hrun
    exact ⟨s, ⟨_, rfl, System.leads_of_exec hs⟩, (Prod.mk.inj heq).1,
      Option.isNone_iff_eq_none.mp (Prod.mk.inj heq).2⟩

end OsLab
