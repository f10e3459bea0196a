/-
Tokens that clients hand to each other, directly or through a queue.

A token is loaded by a client, sent into the queue or straight to another client, and
returned by the client that was given it.  `Custody place ..` says that the place of each
token agrees with what the clients and the lists have; since `place` is a function, a
token is never in two places.

* `Custody.load`, `Custody.drop`, `Custody.enqueue`, `Custody.hand`, `Custody.take`,
  `Custody.store` — one rule for each way a token moves;
* `Leases` — the resources of a token are freed once, when it is returned or dropped.
-/
import Mathlib.Data.List.Nodup
import Mathlib.Data.Nat.Basic
import Mathlib.Logic.Function.Basic

namespace OsLab

variable {α : Type*}

/-- The place of a token. -/
inductive Place
  | nowhere
  /-- loaded by a client that has not sent it yet -/
  | sender (p : ℕ)
  | queued
  /-- given to a client that has not returned it yet -/
  | receiver (p : ℕ)
  | returned
  /-- given up by its sender -/
  | dropped
  deriving DecidableEq

namespace Place

def sent : Place → Bool
  | .queued | .receiver _ | .returned => true
  | _ => false

def freed : Place → Bool
  | .returned | .dropped => true
  | _ => false

end Place

/-- The places account for the tokens that clients send or have been given, for
those in the queue and for those returned. -/
structure Custody (place : α → Place) (sends given : ℕ → Option α)
    (queue returned sent : List α) : Prop where
  mem_sends : ∀ p m, sends p = some m → place m = .sender p
  mem_given : ∀ p m, given p = some m ↔ place m = .receiver p
  mem_queue : ∀ m, m ∈ queue ↔ place m = .queued
  mem_returned : ∀ m, m ∈ returned ↔ place m = .returned
  mem_sent : ∀ m, m ∈ sent ↔ (place m).sent = true
  nodup : queue.Nodup ∧ returned.Nodup ∧ sent.Nodup

namespace Custody

variable [DecidableEq α]

variable {place : α → Place} {sends given : ℕ → Option α}
  {queue returned sent : List α} {m : α} {a b : Place} {p x : ℕ}

/-- Moving `m` concerns neither those at `a` nor those at another place. -/
theorem iff_update {P : Prop} {m' : α} (h : P ↔ place m' = a) (hm : place m ≠ a)
    (hb : b ≠ a) : P ↔ Function.update place m b m' = a := by
  by_cases heq : m' = m
  · subst heq
    rw [Function.update_self]
    exact iff_of_false (fun hP => hm (h.mp hP)) hb
  · rw [Function.update_of_ne heq]
    exact h

/-- What has been sent stays so when `m` is moved between two such places, or two others. -/
theorem sent_update {P : Prop} {m' : α} (h : P ↔ (place m').sent = true)
    (hb : b.sent = (place m).sent) : P ↔ (Function.update place m b m').sent = true := by
  by_cases heq : m' = m
  · subst heq
    rw [Function.update_self, hb]
    exact h
  · rw [Function.update_of_ne heq]
    exact h

theorem sends_update (h : Custody place sends given queue returned sent)
    (hm : ∀ y, place m = .sender y → sends y ≠ some m) {y : ℕ} {m' : α}
    (hy : sends y = some m') : Function.update place m b m' = .sender y := by
  have hplace := h.mem_sends y m' hy
  have hne : m' ≠ m := by
    rintro rfl
    exact hm y hplace hy
  rw [Function.update_of_ne hne]
  exact hplace

/-- Only the sender sends its token. -/
theorem sends_clear (h : Custody place sends given queue returned sent)
    (hm : place m = .sender p) {y : ℕ} {m' : α}
    (hx : sends p = some m) (hy : Function.update sends p none y = some m') :
    Function.update place m b m' = .sender y := by
  by_cases heq : y = p
  · subst heq
    simp at hy
  · rw [Function.update_of_ne heq] at hy
    have hplace := h.mem_sends y m' hy
    have hne : m' ≠ m := by
      rintro rfl
      rw [hm] at hplace
      exact heq (Place.sender.inj hplace).symm
    rw [Function.update_of_ne hne]
    exact hplace

theorem load (h : Custody place sends given queue returned sent) (hm : place m = .nowhere) :
    Custody (Function.update place m (.sender p)) (Function.update sends p (some m)) given queue
      returned sent := by
  refine ⟨fun y m' hy => ?_, fun y m' => iff_update (h.mem_given y m') (by simp [hm]) (by simp),
    fun m' => iff_update (h.mem_queue m') (by simp [hm]) (by simp),
    fun m' => iff_update (h.mem_returned m') (by simp [hm]) (by simp),
    fun m' => sent_update (h.mem_sent m') (by rw [hm]; rfl), h.nodup⟩
  by_cases heq : y = p
  · subst heq
    rw [Function.update_self, Option.some_inj] at hy
    rw [← hy, Function.update_self]
  · rw [Function.update_of_ne heq] at hy
    exact h.sends_update (fun z hz => by rw [hm] at hz; cases hz) hy

theorem drop (h : Custody place sends given queue returned sent) (hp : sends p = some m) :
    Custody (Function.update place m .dropped) (Function.update sends p none) given queue returned
      sent := by
  have hm := h.mem_sends p m hp
  exact ⟨fun y m' hy => h.sends_clear hm hp hy,
    fun y m' => iff_update (h.mem_given y m') (by simp [hm]) (by simp),
    fun m' => iff_update (h.mem_queue m') (by simp [hm]) (by simp),
    fun m' => iff_update (h.mem_returned m') (by simp [hm]) (by simp),
    fun m' => sent_update (h.mem_sent m') (by rw [hm]; rfl), h.nodup⟩

/-- The tokens sent are one more. -/
theorem sent_append (h : Custody place sends given queue returned sent)
    (hm : (place m).sent = false) (hb : b.sent = true) :
    (∀ m', m' ∈ sent ++ [m] ↔ (Function.update place m b m').sent = true) ∧
      (sent ++ [m]).Nodup := by
  have hnot : m ∉ sent := by
    rw [h.mem_sent, hm]
    simp
  constructor
  · intro m'
    rw [List.mem_append, List.mem_singleton]
    by_cases heq : m' = m
    · subst heq
      rw [Function.update_self, hb]
      simp
    · rw [Function.update_of_ne heq, h.mem_sent]
      simp [heq]
  · refine List.nodup_append.mpr ⟨h.nodup.2.2, List.nodup_singleton _, fun y hy z hz => ?_⟩
    rw [List.mem_singleton.mp hz]
    rintro rfl
    exact hnot hy

theorem enqueue (h : Custody place sends given queue returned sent) (hp : sends p = some m) :
    Custody (Function.update place m .queued) (Function.update sends p none) given (queue ++ [m])
      returned (sent ++ [m]) := by
  have hm := h.mem_sends p m hp
  obtain ⟨hsent, hnodup⟩ := h.sent_append (m := m) (b := .queued) (by rw [hm]; rfl) rfl
  have hnot : m ∉ queue := by
    rw [h.mem_queue, hm]
    simp
  refine ⟨fun y m' hy => h.sends_clear hm hp hy,
    fun y m' => iff_update (h.mem_given y m') (by simp [hm]) (by simp), fun m' => ?_,
    fun m' => iff_update (h.mem_returned m') (by simp [hm]) (by simp), hsent, ?_, h.nodup.2.1, hnodup⟩
  · rw [List.mem_append, List.mem_singleton]
    by_cases heq : m' = m
    · subst heq
      simp
    · rw [Function.update_of_ne heq, h.mem_queue]
      simp [heq]
  · refine List.nodup_append.mpr ⟨h.nodup.1, List.nodup_singleton _, fun y hy z hz => ?_⟩
    rw [List.mem_singleton.mp hz]
    rintro rfl
    exact hnot hy

/-- Process `x` is given `m`. -/
theorem given_update (h : Custody place sends given queue returned sent) (hx : given x = none)
    (hm : ∀ y, place m ≠ .receiver y) (y : ℕ) (m' : α) :
    Function.update given x (some m) y = some m' ↔
      Function.update place m (.receiver x) m' = .receiver y := by
  by_cases hy : y = x
  · subst hy
    rw [Function.update_self, Option.some_inj]
    by_cases heq : m' = m
    · subst heq
      simp
    · rw [Function.update_of_ne heq, ← h.mem_given, hx]
      simp [Ne.symm heq]
  · rw [Function.update_of_ne hy]
    refine iff_update (h.mem_given y m') (hm y) ?_
    simpa using Ne.symm hy

theorem hand (h : Custody place sends given queue returned sent) (hp : sends p = some m)
    (hx : given x = none) :
    Custody (Function.update place m (.receiver x)) (Function.update sends p none)
      (Function.update given x (some m)) queue returned (sent ++ [m]) := by
  have hm := h.mem_sends p m hp
  obtain ⟨hsent, hnodup⟩ := h.sent_append (m := m) (b := .receiver x) (by rw [hm]; rfl) rfl
  exact ⟨fun y m' hy => h.sends_clear hm hp hy, h.given_update hx (by simp [hm]),
    fun m' => iff_update (h.mem_queue m') (by simp [hm]) (by simp),
    fun m' => iff_update (h.mem_returned m') (by simp [hm]) (by simp), hsent, h.nodup.1, h.nodup.2.1,
    hnodup⟩

theorem take (h : Custody place sends given queue returned sent) (hmem : m ∈ queue)
    (hx : given x = none) :
    Custody (Function.update place m (.receiver x)) sends (Function.update given x (some m))
      (queue.erase m) returned sent := by
  have hm := (h.mem_queue m).mp hmem
  refine ⟨fun y m' hy => h.sends_update (fun z hz => by rw [hm] at hz; cases hz) hy,
    h.given_update hx (by simp [hm]), fun m' => ?_,
    fun m' => iff_update (h.mem_returned m') (by simp [hm]) (by simp),
    fun m' => sent_update (h.mem_sent m') (by rw [hm]; rfl), h.nodup.1.erase m, h.nodup.2⟩
  rw [h.nodup.1.mem_erase_iff]
  by_cases heq : m' = m
  · subst heq
    simp
  · rw [Function.update_of_ne heq, h.mem_queue]
    simp [heq]

theorem store (h : Custody place sends given queue returned sent) (hp : given p = some m) :
    Custody (Function.update place m .returned) sends (Function.update given p none) queue
      (returned ++ [m]) sent := by
  have hm := (h.mem_given p m).mp hp
  have hnot : m ∉ returned := by
    rw [h.mem_returned, hm]
    simp
  refine ⟨fun y m' hy => h.sends_update (fun z hz => by rw [hm] at hz; cases hz) hy,
    fun y m' => ?_, fun m' => iff_update (h.mem_queue m') (by simp [hm]) (by simp), fun m' => ?_,
    fun m' => sent_update (h.mem_sent m') (by rw [hm]; rfl), h.nodup.1, ?_, h.nodup.2.2⟩
  · by_cases hy : y = p
    · subst hy
      rw [Function.update_self]
      refine iff_of_false (by simp) ?_
      by_cases heq : m' = m
      · subst heq
        simp
      · rw [Function.update_of_ne heq, ← h.mem_given, hp, Option.some_inj]
        exact Ne.symm heq
    · rw [Function.update_of_ne hy]
      refine iff_update (h.mem_given y m') ?_ (by simp)
      rw [hm]
      simpa using Ne.symm hy
  · rw [List.mem_append, List.mem_singleton]
    by_cases heq : m' = m
    · subst heq
      simp
    · rw [Function.update_of_ne heq, h.mem_returned]
      simp [heq]
  · refine List.nodup_append.mpr ⟨h.nodup.2.1, List.nodup_singleton _, fun y hy z hz => ?_⟩
    rw [List.mem_singleton.mp hz]
    rintro rfl
    exact hnot hy

end Custody

/-! ### Resources -/

/-- Every token that has been loaded has resources of its own, numbered below `next`; they
have been freed once when the token is done with, and not before. -/
structure Leases (place : α → Place) (pages : α → List ℕ) (next : ℕ) (freed : List ℕ) : Prop where
  lt : ∀ m, place m ≠ .nowhere → ∀ n ∈ pages m, n < next
  disjoint : ∀ m m', place m ≠ .nowhere → place m' ≠ .nowhere → m ≠ m' →
    ∀ n ∈ pages m, n ∉ pages m'
  nodup : ∀ m, place m ≠ .nowhere → (pages m).Nodup
  count : ∀ m, place m ≠ .nowhere → ∀ n ∈ pages m,
    freed.count n = if (place m).freed = true then 1 else 0
  old : ∀ n ∈ freed, n < next

namespace Leases

variable [DecidableEq α] {place : α → Place} {pages : α → List ℕ} {next : ℕ} {freed : List ℕ}
  {m : α} {b : Place}

/-- A token moves on. -/
theorem move (h : Leases place pages next freed) (hm : place m ≠ .nowhere)
    (hfreed : b.freed = (place m).freed) : Leases (Function.update place m b) pages next freed := by
  have hloaded : ∀ m', Function.update place m b m' ≠ .nowhere → place m' ≠ .nowhere := by
    intro m' hm'
    by_cases heq : m' = m
    · rw [heq]
      exact hm
    · rwa [Function.update_of_ne heq] at hm'
  refine ⟨fun m' hm' => h.lt m' (hloaded m' hm'),
    fun m' m'' hm' hm'' => h.disjoint m' m'' (hloaded m' hm') (hloaded m'' hm''),
    fun m' hm' => h.nodup m' (hloaded m' hm'), fun m' hm' n hn => ?_, h.old⟩
  rw [h.count m' (hloaded m' hm') n hn]
  by_cases heq : m' = m
  · rw [heq, Function.update_self, hfreed]
  · rw [Function.update_of_ne heq]

/-- A token is loaded, with new resources. -/
theorem load {k p : ℕ} (h : Leases place pages next freed) (hm : place m = .nowhere)
    (hpages : ∀ n, n ∈ pages m ↔ next ≤ n ∧ n < next + k) (hnodup : (pages m).Nodup) :
    Leases (Function.update place m (.sender p)) pages (next + k) freed := by
  have hold : ∀ m', m' ≠ m → Function.update place m (.sender p) m' ≠ .nowhere →
      place m' ≠ .nowhere := by
    intro m' hne hm'
    rwa [Function.update_of_ne hne] at hm'
  refine ⟨fun m' hm' n hn => ?_, fun m' m'' hm' hm'' hne n hn hn' => ?_, fun m' hm' => ?_,
    fun m' hm' n hn => ?_, fun n hn => Nat.lt_add_right k (h.old n hn)⟩
  · by_cases heq : m' = m
    · rw [heq] at hn
      exact ((hpages n).mp hn).2
    · exact Nat.lt_add_right k (h.lt m' (hold m' heq hm') n hn)
  · by_cases heq : m' = m
    · subst heq
      have hlt := h.lt m'' (hold m'' (Ne.symm hne) hm'') n hn'
      exact absurd ((hpages n).mp hn).1 (Nat.not_le_of_lt hlt)
    · have hlt := h.lt m' (hold m' heq hm') n hn
      by_cases heq' : m'' = m
      · rw [heq'] at hn'
        exact absurd ((hpages n).mp hn').1 (Nat.not_le_of_lt hlt)
      · exact h.disjoint m' m'' (hold m' heq hm') (hold m'' heq' hm'') hne n hn hn'
  · by_cases heq : m' = m
    · rw [heq]
      exact hnodup
    · exact h.nodup m' (hold m' heq hm')
  · by_cases heq : m' = m
    · subst heq
      rw [Function.update_self]
      refine List.count_eq_zero_of_not_mem fun hmem => ?_
      exact absurd ((hpages n).mp hn).1 (Nat.not_le_of_lt (h.old n hmem))
    · rw [Function.update_of_ne heq]
      exact h.count m' (hold m' heq hm') n hn

/-- A token is done with, and its resources are freed. -/
theorem free (h : Leases place pages next freed) (hm : place m ≠ .nowhere)
    (hbefore : (place m).freed = false) (hb : b.freed = true) :
    Leases (Function.update place m b) pages next (freed ++ pages m) := by
  have hloaded : ∀ m', Function.update place m b m' ≠ .nowhere → place m' ≠ .nowhere := by
    intro m' hm'
    by_cases heq : m' = m
    · rw [heq]
      exact hm
    · rwa [Function.update_of_ne heq] at hm'
  refine ⟨fun m' hm' => h.lt m' (hloaded m' hm'),
    fun m' m'' hm' hm'' => h.disjoint m' m'' (hloaded m' hm') (hloaded m'' hm''),
    fun m' hm' => h.nodup m' (hloaded m' hm'), fun m' hm' n hn => ?_, fun n hn => ?_⟩
  · rw [List.count_append, h.count m' (hloaded m' hm') n hn]
    by_cases heq : m' = m
    · subst heq
      rw [Function.update_self, hb, hbefore, List.count_eq_one_of_mem (h.nodup m' hm) hn]
      rfl
    · rw [Function.update_of_ne heq, List.count_eq_zero_of_not_mem
        (h.disjoint m' m (hloaded m' hm') hm heq n hn), Nat.add_zero]
  · rcases List.mem_append.mp hn with hn | hn
    · exact h.old n hn
    · exact h.lt m hm n hn

end Leases

end OsLab
