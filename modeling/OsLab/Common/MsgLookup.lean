/-
The lookup of a message queue by its identifier (`get_msgq` of `common/ipc.c`).

The slot is `msgid % SEQ_MULTIPLIER`, which is negative for most negative identifiers, and is
only compared with `msg_ids.size` from above.

* `IpcIds.Names` — the identifier of a queue in the table;
* `IpcState.LooksUp` — `get_msgq` stays inside the table and finds just the queue that is named,
  and `sys_msgsnd` and `sys_msgrcv` fail with `EIDRM` when there is none;
* `getMsgq_iff` — this is so for the identifiers that are not negative and the multiples of 16.
-/
import OsLab.Common.IpcIds

namespace OsLab

namespace IpcIds

/-- The identifier is that of queue `q` in slot `id`. -/
def Names (ids : IpcIds) (msgid : ℤ) (id : ℕ) (q : MsgQueue) : Prop :=
  ids.entries id = some q ∧ (id : ℤ) < ids.size ∧ msgid = ipcBuildin id q.seq

/-- The table has 16 slots, and the numbers of its queues come from an `unsigned short`. -/
structure Table (ids : IpcIds) : Prop where
  size : ids.size = 16
  seq : ∀ id q, ids.entries id = some q → 0 ≤ q.seq ∧ q.seq < 65536

variable {ids : IpcIds} {msgid : ℤ} {id : ℕ} {q : MsgQueue}

/-- An identifier that is not negative is taken apart into what it was put together from. -/
theorem getMsgq_nonneg (hsize : ids.size = 16) (h : 0 ≤ msgid) : ids.getMsgq msgid =
    match ids.entries (msgid % 16).toNat with
    | none => .null
    | some q => if msgid / 16 ≠ q.seq then .null else .found (msgid % 16).toNat q := by
  have hmod : msgid.tmod seqMultiplier = msgid % 16 := Int.tmod_eq_emod_of_nonneg h
  have hdiv : msgid.tdiv seqMultiplier = msgid / 16 := Int.tdiv_eq_ediv_of_nonneg h
  unfold getMsgq
  simp only [hmod, hdiv, hsize]
  refine (if_neg (by omega)).trans ((if_neg (by omega)).trans ?_)
  cases ids.entries (msgid % 16).toNat <;> rfl

/-- A negative multiple of 16 goes to slot 0, with a number that no queue has. -/
theorem getMsgq_dvd (ht : ids.Table) (h : msgid < 0) (hdvd : (16 : ℤ) ∣ msgid) :
    ids.getMsgq msgid = .null := by
  obtain ⟨k, rfl⟩ := hdvd
  have hmod : (16 * k).tmod seqMultiplier = 0 := Int.mul_tmod_right 16 k
  have hdiv : (16 * k).tdiv seqMultiplier = k := Int.mul_tdiv_cancel_left k (by decide)
  unfold getMsgq
  simp only [hmod, hdiv, ht.size]
  rw [if_neg (by decide), if_neg (by decide)]
  cases hq : ids.entries (0 : ℤ).toNat with
  | none => rfl
  | some q =>
    have hseq := (ht.seq _ q hq).1
    dsimp only
    rw [if_pos (by omega)]

/-- The other negative identifiers read in front of the table. -/
theorem getMsgq_outside (hsize : ids.size = 16) (h : msgid < 0) (hdvd : ¬(16 : ℤ) ∣ msgid) :
    ids.getMsgq msgid = .outside := by
  have hne : msgid.tmod seqMultiplier ≠ 0 := fun h0 => hdvd (Int.dvd_of_tmod_eq_zero h0)
  have hle : 0 ≤ (-msgid).tmod seqMultiplier := Int.tmod_nonneg _ (by omega)
  rw [Int.neg_tmod] at hle
  unfold getMsgq
  dsimp only
  rw [hsize, if_neg (by omega), if_pos (by omega)]

/-- What is found is what is named. -/
theorem found_iff (ht : ids.Table) (h : 0 ≤ msgid) :
    ids.getMsgq msgid = .found id q ↔ ids.Names msgid id q := by
  have hput : ∀ (i : ℕ) (seq : ℤ), ipcBuildin i seq = seq * 16 + i := fun _ _ => rfl
  rw [getMsgq_nonneg ht.size h]
  constructor
  · intro hfound
    split at hfound
    · cases hfound
    · rename_i q' hq
      split at hfound
      · cases hfound
      · rename_i hseq
        cases hfound
        refine ⟨hq, ?_, ?_⟩
        · rw [ht.size]
          omega
        · rw [hput]
          omega
  · rintro ⟨hq, hlt, rfl⟩
    rw [ht.size] at hlt
    have hseq := (ht.seq id q hq).1
    have hmod : (ipcBuildin id q.seq % 16).toNat = id := by
      rw [hput]
      omega
    have hdiv : ipcBuildin id q.seq / 16 = q.seq := by
      rw [hput]
      omega
    rw [hmod, hdiv, hq]
    simp

/-- Nothing is named by a negative identifier. -/
theorem not_names (ht : ids.Table) (h : msgid < 0) : ¬ids.Names msgid id q := by
  rintro ⟨hq, -, rfl⟩
  have hseq := (ht.seq id q hq).1
  have hput : ipcBuildin id q.seq = q.seq * 16 + id := rfl
  omega

end IpcIds

/-- The calls of `sys_msgget` and `sys_msgctl` keep the table. -/
theorem MsgIds.table_of_reachable {s : MsgIds}
    (h : msgIdsSystem.Reachable (fun _ _ => True) s) : s.ids.Table := by
  have hinv := MsgIds.inv_of_reachable h
  refine ⟨hinv.size, fun id q hq => ?_⟩
  obtain ⟨w, -, hseq⟩ := hinv.slot id q hq
  have hlt := w.isLt
  omega

namespace IpcState

/-- `get_msgq` reads inside the table and finds the queue that the identifier names; with an
identifier that names none, the calls fail and leave all queues alone. -/
structure LooksUp (s : IpcState) (msgid : ℤ) : Prop where
  inside : s.ids.getMsgq msgid ≠ .outside
  found : ∀ id q, s.ids.getMsgq msgid = .found id q ↔ s.ids.Names msgid id q
  msgsnd : (∀ id q, ¬s.ids.Names msgid id q) → ∀ p msg msgflg,
    ∃ t, s.sndSection p msgid msg msgflg = some t ∧ t.pc p = .out errIdrm ∧ t.ids = s.ids
  msgrcv : (∀ id q, ¬s.ids.Names msgid id q) → ∀ p msgsz mtype msgflg,
    ∃ t, s.rcvSection p msgid msgsz mtype msgflg = some t ∧ t.pc p = .out errIdrm ∧ t.ids = s.ids

variable {s : IpcState} {msgid : ℤ}

/-- It is enough to look at `get_msgq`. -/
theorem looksUp_of_getMsgq (hinside : s.ids.getMsgq msgid ≠ .outside)
    (hfound : ∀ id q, s.ids.getMsgq msgid = .found id q ↔ s.ids.Names msgid id q) :
    s.LooksUp msgid := by
  have hnull : (∀ id q, ¬s.ids.Names msgid id q) → s.ids.getMsgq msgid = .null := by
    intro hnone
    cases hget : s.ids.getMsgq msgid with
    | outside => exact absurd hget hinside
    | null => rfl
    | found id q => exact absurd ((hfound id q).mp hget) (hnone id q)
  refine ⟨hinside, hfound, fun hnone p msg msgflg => ?_, fun hnone p msgsz mtype msgflg => ?_⟩
  · refine ⟨(s.freeMsg msg).ret p errIdrm, ?_, Function.update_self _ _ _, rfl⟩
    simp only [sndSection, hnull hnone]
  · refine ⟨s.ret p errIdrm, ?_, Function.update_self _ _ _, rfl⟩
    simp only [rcvSection, hnull hnone]

theorem not_looksUp (hsize : s.ids.size = 16) (h : msgid < 0) (hdvd : ¬(16 : ℤ) ∣ msgid) :
    ¬s.LooksUp msgid := fun hl => hl.inside (IpcIds.getMsgq_outside hsize h hdvd)

end IpcState

/-- **Queues are looked up** exactly when the identifier is not negative or a multiple of 16. -/
theorem getMsgq_iff (s : IpcState) (msgid : ℤ) (ht : s.ids.Table) :
    s.LooksUp msgid ↔ 0 ≤ msgid ∨ (16 : ℤ) ∣ msgid := by
  constructor
  · intro hl
    by_contra hnot
    obtain ⟨hneg, hdvd⟩ := not_or.mp hnot
    exact IpcState.not_looksUp ht.size (by omega) hdvd hl
  · intro hor
    by_cases hneg : msgid < 0
    · have hnull := IpcIds.getMsgq_dvd ht hneg (hor.resolve_left (by omega))
      refine IpcState.looksUp_of_getMsgq (by rw [hnull]; simp) fun id q => ?_
      rw [hnull]
      exact iff_of_false (by simp) (IpcIds.not_names ht hneg)
    · have hnonneg : 0 ≤ msgid := by omega
      refine IpcState.looksUp_of_getMsgq ?_ fun id q => IpcIds.found_iff ht hnonneg
      rw [IpcIds.getMsgq_nonneg ht.size hnonneg]
      split
      · simp
      · split <;> simp

/-- The table of the first queue. -/
theorem IpcState.table_new : IpcState.new.ids.Table := by
  refine ⟨rfl, fun id q hq => ?_⟩
  rcases Nat.eq_zero_or_pos id with rfl | hpos
  · obtain rfl : MsgQueue.new 0 = q := Option.some.inj hq
    exact ⟨Int.le_refl _, by decide⟩
  · have hnone : IpcState.new.ids.entries id = none := by
      show Function.update (fun _ => none) 0 _ id = none
      rw [Function.update_of_ne (Nat.ne_of_gt hpos)]
    rw [hnone] at hq
    cases hq

/-- The identifier of a queue that is not there, and that of one. -/
theorem getMsgq_sixteen : IpcState.new.LooksUp 16 ∧ IpcState.new.LooksUp (ipcBuildin 0 0) :=
  ⟨(getMsgq_iff .new 16 IpcState.table_new).mpr (by decide),
    (getMsgq_iff .new (ipcBuildin 0 0) IpcState.table_new).mpr (by decide)⟩

/-- **An error code of `sys_msgget` as an identifier** reads in front of the table. -/
theorem getMsgq_error : ipcSystem.Reachable (fun _ _ => True) .new ∧
    ¬IpcState.new.LooksUp errNoent :=
  ⟨.of_init IpcState.init_new, IpcState.not_looksUp rfl (by decide) (by decide)⟩

end OsLab
