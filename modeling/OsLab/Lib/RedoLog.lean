/-
Crash safety of a redo log, over arbitrary addresses and contents.

A disk is a function from addresses to contents.  A `Format` says where the log
lives: one header block, which lists the target addresses of the logged writes,
and one slot for each of them.  Writes are committed by four phases (fill the
slots, write the header, write the targets, clear the header) and repeated
after a crash by the last two.

The proof follows one idea.  The *logical* content of a disk is what a complete
replay would leave outside the log (`logical`).  Every single write of the
protocol keeps it, except for the header write, which replaces it by the
content after the group (`logical_commit_take`); a replay, also one that is cut
short and started again, keeps it (`logical_replay_take`).  So a recovery that
runs to its end, after any number of interrupted ones, leaves exactly the
logical content (`Recovers.spec`).
-/
import Mathlib.Logic.Function.Basic
import Mathlib.Data.List.Induction
import Mathlib.Tactic.Common

namespace OsLab

/-! ### Disks and lists of writes -/

section Writes

variable {ι β : Type*} [DecidableEq ι]

/-- The disk after the writes of a list, in order. -/
def writeAll (D : ι → β) (ws : List (ι × β)) : ι → β :=
  ws.foldl (fun D w => Function.update D w.1 w.2) D

@[simp] theorem writeAll_nil (D : ι → β) : writeAll D [] = D := rfl

@[simp] theorem writeAll_cons (D : ι → β) (w : ι × β) (ws : List (ι × β)) :
    writeAll D (w :: ws) = writeAll (Function.update D w.1 w.2) ws := rfl

theorem writeAll_append (D : ι → β) (ws vs : List (ι × β)) :
    writeAll D (ws ++ vs) = writeAll (writeAll D ws) vs := List.foldl_append

/-- An address that is not written keeps its content. -/
theorem writeAll_of_notMem {ws : List (ι × β)} {n : ι} (h : ∀ w ∈ ws, w.1 ≠ n) :
    ∀ D : ι → β, writeAll D ws n = D n := by
  induction ws with
  | nil => exact fun D => rfl
  | cons w ws ih =>
    intro D
    rw [writeAll_cons, ih fun v hv => h v (List.mem_cons_of_mem _ hv),
      Function.update_of_ne (h w List.mem_cons_self).symm]

/-- The content of an address after a list of writes depends on the disk only
if no write goes there. -/
theorem writeAll_congr {ws : List (ι × β)} {n : ι} :
    ∀ {D D' : ι → β}, ((∃ w ∈ ws, w.1 = n) ∨ D n = D' n) →
      writeAll D ws n = writeAll D' ws n := by
  induction ws with
  | nil =>
    rintro D D' (⟨w, hw, -⟩ | h)
    · exact absurd hw List.not_mem_nil
    · exact h
  | cons w ws ih =>
    intro D D' h
    rw [writeAll_cons, writeAll_cons]
    refine ih ?_
    by_cases hn : n = w.1
    · exact .inr (by rw [hn, Function.update_self, Function.update_self])
    · rcases h with ⟨v, hv, hvn⟩ | h
      · rcases List.mem_cons.mp hv with rfl | hv
        · exact absurd hvn.symm hn
        · exact .inl ⟨v, hv, hvn⟩
      · exact .inr (by rw [Function.update_of_ne hn, Function.update_of_ne hn, h])

/-- When every write stores `f` of its address, a written address holds `f`. -/
theorem writeAll_of_mem {ws : List (ι × β)} {f : ι → β} (hf : ∀ w ∈ ws, w.2 = f w.1) {n : ι} :
    ∀ {D : ι → β}, ((∃ w ∈ ws, w.1 = n) ∨ D n = f n) → writeAll D ws n = f n := by
  induction ws with
  | nil =>
    rintro D (⟨w, hw, -⟩ | h)
    · exact absurd hw List.not_mem_nil
    · exact h
  | cons w ws ih =>
    intro D h
    rw [writeAll_cons]
    refine ih (fun v hv => hf v (List.mem_cons_of_mem _ hv)) ?_
    by_cases hn : n = w.1
    · exact .inr (by rw [hn, Function.update_self, hf w List.mem_cons_self])
    · rcases h with ⟨v, hv, hvn⟩ | h
      · rcases List.mem_cons.mp hv with rfl | hv
        · exact absurd hvn.symm hn
        · exact .inl ⟨v, hv, hvn⟩
      · exact .inr (by rw [Function.update_of_ne hn, h])

/-- A written address holds the content of its last write, which is not before
any given one. -/
theorem exists_writeAll_eq (D : ι → β) {ws : List (ι × β)} {n : ι} {i : ℕ} (hi : i < ws.length)
    (hn : (ws[i]).1 = n) :
    ∃ j, ∃ hj : j < ws.length, i ≤ j ∧ (ws[j]).1 = n ∧ writeAll D ws n = (ws[j]).2 := by
  induction ws using List.reverseRecOn with
  | nil => exact absurd hi (Nat.not_lt_zero i)
  | append_singleton ws w ih =>
    have hlen : (ws ++ [w]).length = ws.length + 1 := by simp
    rw [writeAll_append, writeAll_cons, writeAll_nil]
    by_cases hw : w.1 = n
    · refine ⟨ws.length, by omega, by omega, ?_, ?_⟩
      · rwa [List.getElem_append_right (Nat.le_refl _), List.getElem_singleton]
      · rw [List.getElem_append_right (Nat.le_refl _), List.getElem_singleton, ← hw,
          Function.update_self]
    · have hi' : i < ws.length := by
        by_contra hge
        rw [List.getElem_append_right (Nat.not_lt.mp hge), List.getElem_singleton] at hn
        exact hw hn
      rw [List.getElem_append_left hi'] at hn
      obtain ⟨j, hj, hij, hjn, heq⟩ := ih hi' hn
      refine ⟨j, by omega, hij, ?_, ?_⟩
      · rwa [List.getElem_append_left hj]
      · rw [Function.update_of_ne (Ne.symm hw), heq, List.getElem_append_left hj]

/-- Repeating all writes over a disk that already holds some of them changes
nothing: replay is idempotent. -/
theorem writeAll_writeAll_of_subset {ws vs : List (ι × β)} (h : ∀ v ∈ vs, v ∈ ws)
    (D : ι → β) (n : ι) : writeAll (writeAll D vs) ws n = writeAll D ws n := by
  by_cases hn : ∃ w ∈ ws, w.1 = n
  · exact writeAll_congr (.inl hn)
  · refine writeAll_congr (.inr (writeAll_of_notMem (fun v hv hvn => hn ⟨v, h v hv, hvn⟩) D))

end Writes

/-! ### The log -/

/-- Where a redo log lives on a disk and how its header is read. -/
structure RedoLog (ι β : Type*) where
  /-- the header block -/
  head : ι
  /-- the block that holds the content of logged write `i` -/
  slot : ℕ → ι
  /-- the number of slots -/
  cap : ℕ
  /-- the targets a header block lists -/
  targets : β → List ι
  /-- the header content that a replay of a log leaves -/
  clear : β → β
  slot_ne_head : ∀ i < cap, slot i ≠ head
  slot_inj : ∀ i < cap, ∀ j < cap, slot i = slot j → i = j
  targets_clear : ∀ b, targets (clear b) = []

namespace RedoLog

section Lists

variable {ι β : Type*} (F : RedoLog ι β)

/-- `n` is neither the header nor a slot of the log. -/
def Outside (n : ι) : Prop := n ≠ F.head ∧ ∀ i < F.cap, n ≠ F.slot i

/-- A list of targets that the log can hold: it fits, and no target is a block
of the log. -/
def Fits (ns : List ι) : Prop := ns.length ≤ F.cap ∧ ∀ n ∈ ns, F.Outside n

/-- The header of `D` lists targets that the log can hold. -/
def Sound (D : ι → β) : Prop := F.Fits (F.targets (D F.head))

/-- The writes that copy the slots of `D` to the targets `ns`. -/
def copies (D : ι → β) (ns : List ι) : List (ι × β) :=
  ns.mapIdx fun i n => (n, D (F.slot i))

/-- The writes of a replay of the log found on `D`. -/
def replay (D : ι → β) : List (ι × β) :=
  F.copies D (F.targets (D F.head)) ++ [(F.head, F.clear (D F.head))]

/-- The writes that fill the slots with the contents of a group. -/
def fills (t : List (ι × β)) : List (ι × β) := t.mapIdx fun i w => (F.slot i, w.2)

/-- The writes of a commit: the slots, the header `hb`, the targets and the
cleared header `he`. -/
def commit (t : List (ι × β)) (hb he : β) : List (ι × β) :=
  F.fills t ++ (F.head, hb) :: (t ++ [(F.head, he)])

variable {F}

theorem mem_copies {D : ι → β} {ns : List ι} {w : ι × β} (h : w ∈ F.copies D ns) :
    w.1 ∈ ns := by
  obtain ⟨i, hi, rfl⟩ := List.mem_mapIdx.mp h
  exact List.getElem_mem hi

theorem Fits.outside {ns : List ι} (h : F.Fits ns) {D : ι → β} {w : ι × β}
    (hw : w ∈ F.copies D ns) : F.Outside w.1 := h.2 _ (mem_copies hw)

/-- Copies depend on the slots only. -/
theorem copies_congr {D D' : ι → β} {ns : List ι} (hns : ns.length ≤ F.cap)
    (h : ∀ i < F.cap, D (F.slot i) = D' (F.slot i)) : F.copies D ns = F.copies D' ns := by
  apply List.ext_getElem
  · simp [copies]
  · intro i h1 h2
    have hi : i < ns.length := by simpa [copies] using h1
    simp only [copies, List.getElem_mapIdx]
    rw [h i (by omega)]

/-- The copies found once the slots are filled are the writes of the group. -/
theorem copies_of_slots {D : ι → β} {t : List (ι × β)}
    (h : ∀ i (hi : i < t.length), D (F.slot i) = (t[i]).2) :
    F.copies D (t.map Prod.fst) = t := by
  apply List.ext_getElem
  · simp [copies]
  · intro i h1 h2
    simp only [copies, List.getElem_mapIdx, List.getElem_map]
    rw [h i h2]

theorem length_fills {t : List (ι × β)} : (F.fills t).length = t.length := by simp [fills]

/-- Filling slots touches slots only. -/
theorem mem_fills {t : List (ι × β)} (ht : t.length ≤ F.cap) {w : ι × β} (hw : w ∈ F.fills t) :
    ∃ i < F.cap, w.1 = F.slot i := by
  obtain ⟨i, hi, rfl⟩ := List.mem_mapIdx.mp hw
  exact ⟨i, by omega, rfl⟩

/-- A write of a commit outside the log is one of the group, after the header write. -/
theorem commit_outside {t : List (ι × β)} {hb he : β} {j : ℕ} {w : ι × β}
    (ht : t.length ≤ F.cap) (hj : (F.commit t hb he)[j]? = some w) (hw : F.Outside w.1) :
    t.length < j ∧ w ∈ t := by
  rw [commit] at hj
  by_cases hfill : j < (F.fills t).length
  · rw [List.getElem?_append_left hfill] at hj
    obtain ⟨i, hi, heq⟩ := mem_fills ht (List.mem_of_getElem? hj)
    exact absurd heq (hw.2 i hi)
  · rw [List.getElem?_append_right (Nat.not_lt.mp hfill), length_fills] at hj
    rw [length_fills] at hfill
    rcases Nat.exists_eq_add_of_le (Nat.not_lt.mp hfill) with ⟨_ | k, rfl⟩
    · -- the header write
      rw [Nat.add_zero, Nat.sub_self, List.getElem?_cons_zero] at hj
      exact absurd (congrArg Prod.fst (Option.some.inj hj)).symm hw.1
    · rw [Nat.add_sub_cancel_left, List.getElem?_cons_succ] at hj
      refine ⟨by omega, ?_⟩
      rcases List.mem_append.mp (List.mem_of_getElem? hj) with hmem | hmem
      · exact hmem
      · exact absurd (congrArg Prod.fst (List.mem_singleton.mp hmem)) hw.1

end Lists

variable {ι β : Type*} [DecidableEq ι] {F : RedoLog ι β}

/-- What a complete replay leaves outside the log. -/
def logical (F : RedoLog ι β) (D : ι → β) : ι → β :=
  writeAll D (F.copies D (F.targets (D F.head)))

/-- `D'` is what a complete replay leaves on `D`, after any number of replays
that stopped after some of their writes. -/
inductive Recovers (F : RedoLog ι β) : (ι → β) → (ι → β) → Prop
  | done (D) : Recovers F D (writeAll D (F.replay D))
  | again {D D'} (k : ℕ) : Recovers F (writeAll D ((F.replay D).take k)) D' → Recovers F D D'

theorem logical_of_empty {D : ι → β} (h : F.targets (D F.head) = []) : F.logical D = D := by
  simp [logical, copies, h]

/-- Writes to targets leave the whole log alone. -/
theorem writeAll_log {ws : List (ι × β)} (h : ∀ w ∈ ws, F.Outside w.1) (D : ι → β) :
    writeAll D ws F.head = D F.head ∧ ∀ i < F.cap, writeAll D ws (F.slot i) = D (F.slot i) :=
  ⟨writeAll_of_notMem (fun w hw => (h w hw).1) D,
    fun i hi => writeAll_of_notMem (fun w hw => (h w hw).2 i hi) D⟩

/-- Writing some of the logged copies to their targets keeps the logical
content. -/
theorem logical_writeAll_copies {D : ι → β} (hD : F.Sound D) (ws : List (ι × β))
    (hws : ∀ w ∈ ws, w ∈ F.copies D (F.targets (D F.head))) :
    F.Sound (writeAll D ws) ∧ F.logical (writeAll D ws) = F.logical D := by
  obtain ⟨hhead, hslot⟩ := writeAll_log (fun w hw => hD.outside (hws w hw)) D
  refine ⟨by rw [Sound, hhead]; exact hD, ?_⟩
  funext n
  rw [logical, hhead, copies_congr hD.1 hslot, logical]
  exact writeAll_writeAll_of_subset hws D n

/-- Once all copies are at their targets the header can be cleared. -/
theorem logical_clear {D : ι → β} {n : ι} (hn : F.Outside n) {b : β} (hb : F.targets b = []) :
    F.logical (Function.update (F.logical D) F.head b) n = F.logical D n := by
  rw [logical_of_empty (by simp [hb]), Function.update_of_ne hn.1]

/-! ### Replay -/

/-- A replay that stops after any number of writes keeps the logical content. -/
theorem logical_replay_take {D : ι → β} (hD : F.Sound D) (k : ℕ) :
    F.Sound (writeAll D ((F.replay D).take k)) ∧
      ∀ n, F.Outside n → F.logical (writeAll D ((F.replay D).take k)) n = F.logical D n := by
  set cs := F.copies D (F.targets (D F.head)) with hcs
  by_cases hk : k ≤ cs.length
  · have htake : (F.replay D).take k = cs.take k := by
      rw [replay, List.take_append_of_le_length hk]
    rw [htake]
    obtain ⟨hs, hl⟩ := logical_writeAll_copies hD
      (cs.take k) (fun w hw => List.mem_of_mem_take hw)
    exact ⟨hs, fun n _ => by rw [hl]⟩
  · have htake : (F.replay D).take k = cs ++ [(F.head, F.clear (D F.head))] := by
      rw [replay, List.take_of_length_le (by simp [← hcs]; omega)]
    rw [htake, writeAll_append]
    have hclear : F.targets (F.clear (D F.head)) = [] := F.targets_clear _
    refine ⟨?_, fun n hn => logical_clear hn hclear⟩
    simp [Sound, Fits, hclear]

/-- **Recovery.**  However often it is interrupted, a recovery that runs to its
end leaves an empty header and, outside the log, the logical content. -/
theorem Recovers.spec {D D' : ι → β} (h : F.Recovers D D') (hD : F.Sound D) :
    F.targets (D' F.head) = [] ∧ ∀ n, F.Outside n → D' n = F.logical D n := by
  induction h with
  | done D =>
    have hlast : writeAll D (F.replay D)
        = Function.update (F.logical D) F.head (F.clear (D F.head)) := by
      rw [replay, writeAll_append]
      rfl
    rw [hlast]
    exact ⟨by simp [F.targets_clear], fun n hn => Function.update_of_ne hn.1 _ _⟩
  | again k _ ih =>
    obtain ⟨hs, hl⟩ := logical_replay_take hD k
    exact ⟨(ih hs).1, fun n hn => ((ih hs).2 n hn).trans (hl n hn)⟩

/-! ### Commit -/

theorem writeAll_fills_take {t : List (ι × β)} (ht : t.length ≤ F.cap) (k : ℕ) (D : ι → β) :
    writeAll D ((F.fills t).take k) F.head = D F.head ∧
      ∀ n, F.Outside n → writeAll D ((F.fills t).take k) n = D n := by
  constructor
  · refine writeAll_of_notMem (fun w hw hwn => ?_) D
    obtain ⟨i, hi, hwi⟩ := mem_fills ht (List.mem_of_mem_take hw)
    exact F.slot_ne_head i hi (hwi.symm.trans hwn)
  · intro n hn
    refine writeAll_of_notMem (fun w hw hwn => ?_) D
    obtain ⟨i, hi, hwi⟩ := mem_fills ht (List.mem_of_mem_take hw)
    exact hn.2 i hi (hwn.symm.trans hwi)

/-- After the first phase slot `i` holds the content of logged write `i`. -/
theorem writeAll_fills_slot {t : List (ι × β)} (ht : t.length ≤ F.cap) (D : ι → β) {i : ℕ}
    (hi : i < t.length) : writeAll D (F.fills t) (F.slot i) = (t[i]).2 := by
  induction t using List.reverseRecOn with
  | nil => exact absurd hi (Nat.not_lt_zero i)
  | append_singleton t w ih =>
    have hlen : t.length + 1 ≤ F.cap := by simpa using ht
    have hsplit : F.fills (t ++ [w]) = F.fills t ++ [(F.slot t.length, w.2)] := by
      simp [fills, List.mapIdx_append]
    rw [hsplit, writeAll_append, writeAll_cons, writeAll_nil]
    by_cases hit : i = t.length
    · subst hit
      simp
    · have hi' : i < t.length := by
        simp only [List.length_append, List.length_cons, List.length_nil] at hi
        omega
      have hne : F.slot i ≠ F.slot t.length :=
        fun h => hit (F.slot_inj i (by omega) t.length (by omega) h)
      rw [Function.update_of_ne hne, ih (by omega) hi', List.getElem_append_left hi']

/-- **A commit that stops after any number of writes.**  Up to the header write
the logical content is the old one, from the header write on it is the one with
the whole group applied. -/
theorem logical_commit_take {D : ι → β} (hD : F.targets (D F.head) = []) {t : List (ι × β)}
    {hb he : β} (hhb : F.targets hb = t.map Prod.fst) (hhe : F.targets he = [])
    (ht : F.Fits (t.map Prod.fst)) (k : ℕ) :
    F.Sound (writeAll D ((F.commit t hb he).take k)) ∧
      ∀ n, F.Outside n → F.logical (writeAll D ((F.commit t hb he).take k)) n
        = if k ≤ t.length then D n else writeAll D t n := by
  have hlen : t.length ≤ F.cap := by simpa using ht.1
  have hfl : (F.fills t).length = t.length := length_fills
  by_cases hk : k ≤ t.length
  · -- the header is still the old, empty one
    have htake : (F.commit t hb he).take k = (F.fills t).take k := by
      rw [commit, List.take_append_of_le_length (by omega)]
    obtain ⟨hhead, hout⟩ := writeAll_fills_take hlen k D
    rw [htake]
    have hempty : F.targets (writeAll D ((F.fills t).take k) F.head) = [] := by
      rw [hhead, hD]
    refine ⟨by simp [Sound, Fits, hempty], fun n hn => ?_⟩
    rw [logical_of_empty hempty, hout n hn, if_pos hk]
  · -- `D₁` is the disk right after the header write
    set D₁ := Function.update (writeAll D (F.fills t)) F.head hb with hD₁
    have hhead₁ : F.targets (D₁ F.head) = t.map Prod.fst := by simp [hD₁, hhb]
    have hcopies : F.copies D₁ (F.targets (D₁ F.head)) = t := by
      rw [hhead₁]
      refine copies_of_slots fun i hi => ?_
      rw [hD₁, Function.update_of_ne (F.slot_ne_head i (by omega)),
        writeAll_fills_slot hlen D hi]
    have hsound₁ : F.Sound D₁ := by rw [Sound, hhead₁]; exact ht
    have hold : ∀ n, F.Outside n → D₁ n = D n := by
      intro n hn
      have hfull := (writeAll_fills_take hlen t.length D).2 n hn
      rw [List.take_of_length_le (by omega)] at hfull
      rw [hD₁, Function.update_of_ne hn.1, hfull]
    have hlogical₁ : ∀ n, F.Outside n → F.logical D₁ n = writeAll D t n := by
      intro n hn
      rw [logical, hcopies]
      exact writeAll_congr (.inr (hold n hn))
    obtain ⟨j, rfl⟩ : ∃ j, k = t.length + (j + 1) := ⟨k - t.length - 1, by omega⟩
    have htake : (F.commit t hb he).take (t.length + (j + 1))
        = F.fills t ++ (F.head, hb) :: (t ++ [(F.head, he)]).take j := by
      rw [commit, ← hfl, List.take_length_add_append, List.take_succ_cons]
    rw [htake, writeAll_append, writeAll_cons, ← hD₁]
    simp only [if_neg hk]
    by_cases hj : j ≤ t.length
    · -- some of the targets are written
      rw [List.take_append_of_le_length hj]
      obtain ⟨hs, hl⟩ := logical_writeAll_copies hsound₁ (t.take j)
        (fun w hw => by rw [hcopies]; exact List.mem_of_mem_take hw)
      exact ⟨hs, fun n hn => by rw [hl, hlogical₁ n hn]⟩
    · -- all of them are, and the header is cleared
      rw [List.take_of_length_le (by simp; omega), writeAll_append, writeAll_cons, writeAll_nil]
      have hl : writeAll D₁ t = F.logical D₁ := by rw [logical, hcopies]
      rw [hl]
      refine ⟨by simp [Sound, Fits, hhe], fun n hn => ?_⟩
      rw [logical_clear hn hhe, hlogical₁ n hn]

/-- What a complete commit leaves: an empty header, and the group applied
outside the log. -/
theorem writeAll_commit {D : ι → β} {t : List (ι × β)} {hb he : β} (hhe : F.targets he = [])
    (ht : F.Fits (t.map Prod.fst)) :
    F.targets (writeAll D (F.commit t hb he) F.head) = [] ∧
      ∀ n, F.Outside n → writeAll D (F.commit t hb he) n = writeAll D t n := by
  have hlen : t.length ≤ F.cap := by simpa using ht.1
  rw [commit, writeAll_append, writeAll_cons, writeAll_append, writeAll_cons, writeAll_nil]
  refine ⟨by simp [hhe], fun n hn => ?_⟩
  have hfull := (writeAll_fills_take hlen t.length D).2 n hn
  rw [List.take_of_length_le (Nat.le_of_eq length_fills)] at hfull
  rw [Function.update_of_ne hn.1]
  refine writeAll_congr (.inr ?_)
  rw [Function.update_of_ne hn.1, hfull]

end RedoLog

end OsLab
