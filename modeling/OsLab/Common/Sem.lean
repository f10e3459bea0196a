/-
Semaphores and sleep locks (`common/sem.h`, `common/sem.c`).

A semaphore is its value and the queue of processes that sleep on it.  A waiter
is inserted after the list head and woken from the tail, so processes are woken
in the order in which they went to sleep; `_post_sem` hands the permit to the
process it wakes.  A sleep lock is a semaphore with initial value 1.

* `Semaphore.Locks` — the invariant of a sleep lock: at most one process has the
  permit, and the value counts the others (`Locks.wait`, `Locks.wake`,
  `Locks.post`, `Locks.unique`).
-/
import Mathlib.Data.Int.Notation
import Mathlib.Data.List.Basic
import Mathlib.Tactic.Common

namespace OsLab

/-- `Semaphore`; `sleeplist` is read from `sleeplist.next` to `sleeplist.prev`. -/
structure Semaphore where
  val : ℤ
  sleeplist : List ℕ
  deriving DecidableEq, Repr

namespace Semaphore

/-- `init_sem` -/
def init (val : ℤ) : Semaphore := ⟨val, []⟩

/-- `init_sleeplock` -/
def initSleeplock : Semaphore := init 1

/-- `_wait_sem` up to the point where the process has the permit (`true`) or is
on the sleep list (`false`). -/
def wait (sem : Semaphore) (p : ℕ) : Bool × Semaphore :=
  if 0 ≤ sem.val - 1 then (true, { sem with val := sem.val - 1 })
  else (false, ⟨sem.val - 1, p :: sem.sleeplist⟩)

/-- `_post_sem`: the process at the tail of the sleep list, if one has to be
woken, leaves the list with the permit. -/
def post (sem : Semaphore) : Semaphore :=
  if sem.val + 1 ≤ 0 then ⟨sem.val + 1, sem.sleeplist.dropLast⟩
  else { sem with val := sem.val + 1 }

@[simp] theorem init_val (val : ℤ) : (init val).val = val := rfl

@[simp] theorem initSleeplock_val : initSleeplock.val = 1 := rfl

@[simp] theorem wait_val (sem : Semaphore) (p : ℕ) : (sem.wait p).2.val = sem.val - 1 := by
  unfold wait
  split <;> rfl

@[simp] theorem post_val (sem : Semaphore) : sem.post.val = sem.val + 1 := by
  unfold post
  split <;> rfl

/-! ### Sleep locks -/

variable {sem : Semaphore} {asleep owns asleep' owns' : ℕ → Prop} {p q : ℕ}

/-- `q` has the permit: it is back from `_wait_sem`, or it has been woken. -/
def HasPermit (sem : Semaphore) (asleep owns : ℕ → Prop) (q : ℕ) : Prop :=
  owns q ∨ asleep q ∧ q ∉ sem.sleeplist

/-- The invariant of a sleep lock, where `asleep` are the processes that went to
sleep in `_wait_sem` and have not returned, and `owns` those that have returned
with the permit. -/
structure Locks (sem : Semaphore) (asleep owns : ℕ → Prop) : Prop where
  nodup : sem.sleeplist.Nodup
  queue : ∀ q ∈ sem.sleeplist, asleep q
  permit : (sem.val = 1 ∧ sem.sleeplist = [] ∧ ∀ q, ¬ sem.HasPermit asleep owns q) ∨
    ∃ q, sem.HasPermit asleep owns q ∧ (∀ r, sem.HasPermit asleep owns r → r = q) ∧
      sem.val = -sem.sleeplist.length

namespace Locks

theorem congr (h : sem.Locks asleep owns) (hasleep : ∀ q, asleep' q ↔ asleep q)
    (howns : ∀ q, owns' q ↔ owns q) : sem.Locks asleep' owns' := by
  obtain rfl : asleep' = asleep := funext fun q => propext (hasleep q)
  obtain rfl : owns' = owns := funext fun q => propext (howns q)
  exact h

/-- A new sleep lock is free. -/
theorem free (hasleep : ∀ q, ¬ asleep q) (howns : ∀ q, ¬ owns q) :
    initSleeplock.Locks asleep owns := by
  refine ⟨List.nodup_nil, fun q hq => absurd hq List.not_mem_nil, .inl ⟨rfl, rfl, fun q hq => ?_⟩⟩
  rcases hq with hq | ⟨hq, -⟩
  · exact howns q hq
  · exact hasleep q hq

/-- **Mutual exclusion.** -/
theorem unique (h : sem.Locks asleep owns) (hp : owns p) (hq : owns q) : p = q := by
  rcases h.permit with ⟨-, -, hnone⟩ | ⟨r, -, hr, -⟩
  · exact absurd (.inl hp) (hnone p)
  · rw [hr p (.inl hp), hr q (.inl hq)]

/-- `_wait_sem` that returns at once. -/
theorem wait_true (h : sem.Locks asleep owns) (hwait : (sem.wait p).1 = true) :
    (sem.wait p).2.Locks asleep (fun q => q = p ∨ owns q) := by
  unfold wait at hwait ⊢
  split at hwait
  · rename_i hval
    rw [if_pos hval]
    rcases h.permit with ⟨hone, hnil, hnone⟩ | ⟨r, -, -, hneg⟩
    · refine ⟨h.nodup, h.queue, .inr ⟨p, .inl (.inl rfl), fun r hr => ?_, by simp [hone, hnil]⟩⟩
      rcases hr with (hr | hr) | hr
      · exact hr
      · exact absurd (.inl hr) (hnone r)
      · exact absurd (.inr hr) (hnone r)
    · omega
  · cases hwait

/-- `_wait_sem` of a process that goes to sleep. -/
theorem wait_false (h : sem.Locks asleep owns) (hp : ¬ asleep p)
    (hwait : (sem.wait p).1 = false) :
    (sem.wait p).2.Locks (fun q => q = p ∨ asleep q) owns := by
  unfold wait at hwait ⊢
  split at hwait
  · cases hwait
  · rename_i hval
    have hpl : p ∉ sem.sleeplist := fun hmem => hp (h.queue p hmem)
    -- the sleepers without a permit are `p` and those before
    have hiff : ∀ q, HasPermit ⟨sem.val - 1, p :: sem.sleeplist⟩ (fun q => q = p ∨ asleep q) owns q ↔
        sem.HasPermit asleep owns q := by
      intro q
      simp only [HasPermit, List.mem_cons, not_or]
      constructor
      · rintro (hq | ⟨hq, hne, hmem⟩)
        · exact .inl hq
        · exact .inr ⟨hq.resolve_left hne, hmem⟩
      · rintro (hq | ⟨hq, hmem⟩)
        · exact .inl hq
        · refine .inr ⟨.inr hq, ?_, hmem⟩
          rintro rfl
          exact hp hq
    rw [if_neg hval]
    refine ⟨List.nodup_cons.mpr ⟨hpl, h.nodup⟩, fun q hq => ?_, ?_⟩
    · exact (List.mem_cons.mp hq).imp id (h.queue q)
    · rcases h.permit with ⟨hone, -⟩ | ⟨r, hr, huniq, hneg⟩
      · omega
      · refine .inr ⟨r, (hiff r).mpr hr, fun q hq => huniq q ((hiff q).mp hq), ?_⟩
        simp only [hneg, List.length_cons]
        omega

/-- A process that has been woken returns from `_wait_sem`. -/
theorem wake (h : sem.Locks asleep owns) (hp : asleep p) (hmem : p ∉ sem.sleeplist) :
    sem.Locks (fun q => q ≠ p ∧ asleep q) (fun q => q = p ∨ owns q) := by
  have hiff : ∀ q, sem.HasPermit (fun q => q ≠ p ∧ asleep q) (fun q => q = p ∨ owns q) q ↔
      sem.HasPermit asleep owns q := by
    intro q
    constructor
    · rintro ((rfl | hq) | ⟨⟨-, hq⟩, hql⟩)
      · exact .inr ⟨hp, hmem⟩
      · exact .inl hq
      · exact .inr ⟨hq, hql⟩
    · rintro (hq | ⟨hq, hql⟩)
      · exact .inl (.inr hq)
      · by_cases hqp : q = p
        · exact .inl (.inl hqp)
        · exact .inr ⟨⟨hqp, hq⟩, hql⟩
  refine ⟨h.nodup, fun q hq => ⟨fun hqp => hmem (hqp ▸ hq), h.queue q hq⟩, ?_⟩
  rcases h.permit with ⟨hone, hnil, hnone⟩ | ⟨r, hr, huniq, hneg⟩
  · exact .inl ⟨hone, hnil, fun q hq => hnone q ((hiff q).mp hq)⟩
  · exact .inr ⟨r, (hiff r).mpr hr, fun q hq => huniq q ((hiff q).mp hq), hneg⟩

/-- `_post_sem` by the owner: the process that has slept longest gets the permit. -/
theorem post (h : sem.Locks asleep owns) (hp : owns p) (hsleep : ¬ asleep p) :
    sem.post.Locks asleep (fun q => q ≠ p ∧ owns q) := by
  obtain ⟨r, hr, huniq, hneg⟩ := h.permit.resolve_left fun hfree => hfree.2.2 p (.inl hp)
  -- nobody but `p` has the permit
  have honly : ∀ q, sem.HasPermit asleep owns q → q = p := fun q hq =>
    (huniq q hq).trans (huniq p (.inl hp)).symm
  unfold Semaphore.post
  split
  · rename_i hval
    have hne : sem.sleeplist ≠ [] := by
      intro hnil
      rw [hnil, List.length_nil] at hneg
      omega
    obtain ⟨l, w, hl⟩ : ∃ l w, sem.sleeplist = l ++ [w] :=
      ⟨_, _, (List.dropLast_append_getLast hne).symm⟩
    have hnodup := h.nodup
    rw [hl, List.nodup_append] at hnodup
    have hwl : w ∉ l := fun hw => hnodup.2.2 w hw w (List.mem_singleton.mpr rfl) rfl
    have hw : asleep w := h.queue w (by simp [hl])
    rw [hl, List.dropLast_concat]
    refine ⟨hnodup.1, fun q hq => h.queue q (by simp [hl, hq]),
      .inr ⟨w, .inr ⟨hw, hwl⟩, fun q hq => ?_, ?_⟩⟩
    · rcases hq with ⟨hqp, hq⟩ | ⟨hq, hql⟩
      · exact absurd (honly q (.inl hq)) hqp
      · by_contra hqw
        have hqp : q = p := honly q (.inr ⟨hq, fun hmem => by
          rcases List.mem_append.mp (hl ▸ hmem) with hm | hm
          · exact hql hm
          · exact hqw (List.mem_singleton.mp hm)⟩)
        exact hsleep (hqp ▸ hq)
    · rw [hl, List.length_append, List.length_singleton] at hneg
      simp only [hneg]
      omega
  · rename_i hval
    have hnil : sem.sleeplist = [] := List.eq_nil_of_length_eq_zero (by omega)
    refine ⟨h.nodup, h.queue, .inl ⟨by simp [hneg, hnil], hnil, fun q hq => ?_⟩⟩
    rcases hq with ⟨hqp, hq⟩ | ⟨hq, hql⟩
    · exact hqp (honly q (.inl hq))
    · exact hsleep (honly q (.inr ⟨hq, hql⟩) ▸ hq)

end Locks

end Semaphore

end OsLab
