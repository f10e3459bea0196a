/-
The content of messages (`load_msg` and `store_msg` of `common/ipc.c`).

A message that does not fit into one page goes on in segments.  Both functions count the
remaining length down before they move their pointer by `MIN(.., remaining length)`, so a step
that leaves less than the room of a page moves it too little.

* `Copies` — `store_msg` writes the first bytes of what `load_msg` has read, and nothing else;
* `Whole` — the sizes at which every step of `store_msg` is as long as what it has written;
* `copies_iff` — at these sizes, and at no others, the content arrives.
-/
import OsLab.Common.Ipc
import Mathlib.Algebra.Order.Ring.Nat

namespace OsLab

/-- `store_msg` of `msgsz` bytes of a message that `load_msg` has loaded with `len` bytes writes
these bytes of the source, and leaves the rest of the buffer alone. -/
def Copies (len msgsz : ℕ) : Prop :=
  ∀ (src dst : Msgbuf) (page : ℕ), (storeMsg dst (loadMsg src len page) msgsz).data =
    fun i => if i < msgsz then src.data i else dst.data i

/-- The content is in the first page, or the segments before the last one are full and the
last one is so too, unless it is the only one and not shorter than the first page. -/
def Whole (msgsz : ℕ) : Prop :=
  msgsz ≤ msgMsgsz ∨ (2 * msgMsgsz ≤ msgsz ∧ msgsz ≤ msgMsgsz + msgMsgsegsz) ∨
    msgMsgsegsz ∣ msgsz - msgMsgsz

instance (msgsz : ℕ) : Decidable (Whole msgsz) := by
  unfold Whole
  infer_instance

/-! ### One store -/

section Bytes

variable {src dst : ℕ → UInt8} {off n i : ℕ} {bytes : List UInt8} {segs : List MsgSeg}

@[simp] theorem length_bytesAt : (bytesAt src off n).length = n := by simp [bytesAt]

/-- Two ranges one after the other. -/
theorem ite_adjacent {a b c : ℕ} (x y : UInt8) (hab : a ≤ b) (hbc : b ≤ c) :
    (if b ≤ i ∧ i < c then x else if a ≤ i ∧ i < b then x else y) =
      if a ≤ i ∧ i < c then x else y := by
  by_cases hlow : a ≤ i ∧ i < b
  · rw [if_pos hlow, ite_self, if_pos (by omega)]
  · rw [if_neg hlow]
    congr 1
    simp only [eq_iff_iff]
    omega

/-- A part of what was read. -/
theorem take_bytesAt {k : ℕ} (hk : k ≤ n) : (bytesAt src off n).take k = bytesAt src off k := by
  rw [bytesAt, bytesAt, ← List.map_take, List.take_range, Nat.min_eq_left hk]

/-- What is stored at the place that it was read from. -/
theorem putBytes_bytesAt :
    putBytes dst off (bytesAt src off n) i = if off ≤ i ∧ i < off + n then src i else dst i := by
  unfold putBytes
  by_cases hle : off ≤ i
  · rw [if_pos hle, List.getD_eq_getElem?_getD]
    by_cases hlt : i < off + n
    · have hin : i - off < n := by omega
      have hadd : off + (i - off) = i := by omega
      rw [if_pos ⟨hle, hlt⟩, bytesAt, List.getElem?_map, List.getElem?_range hin]
      simp [hadd]
    · have hout : (bytesAt src off n).length ≤ i - off := by
        rw [length_bytesAt]
        omega
      rw [if_neg fun h => hlt h.2, List.getElem?_eq_none hout, Option.getD_none]
  · rw [if_neg hle, if_neg fun h => hle h.1]

/-- A byte that is not in the range of the store. -/
theorem putBytes_of_notMem (hlen : bytes.length ≤ n) (hi : i < off ∨ off + n ≤ i) :
    putBytes dst off bytes i = dst i := by
  unfold putBytes
  rcases hi with hlt | hge
  · rw [if_neg (by omega)]
  · rw [if_pos (by omega), List.getD_eq_getElem?_getD, List.getElem?_eq_none (by omega),
      Option.getD_none]

/-! ### The segments -/

theorem storeSegs_zero : storeSegs dst off 0 segs = dst := by
  cases segs with
  | nil => rfl
  | cons sg segs => rw [storeSegs, if_neg (lt_irrefl 0)]

/-- One step, when there is something left. -/
theorem storeSegs_cons (sg : MsgSeg) (hn : 0 < n) : storeSegs dst off n (sg :: segs) =
    storeSegs (putBytes dst off (sg.data.take (min n msgMsgsegsz)))
      (off + min (n - min n msgMsgsegsz) msgMsgsegsz) (n - min n msgMsgsegsz) segs := by
  rw [storeSegs, if_pos hn]

/-- A full segment of several. -/
theorem full_step (room k : ℕ) : room ≤ room * (k + 1) ∧ min (room * (k + 1)) room = room ∧
    room * (k + 1) - room = room * k := by
  have hle : room ≤ room * (k + 1) := Nat.le_mul_of_pos_right room (Nat.succ_pos k)
  refine ⟨hle, Nat.min_eq_right hle, ?_⟩
  rw [Nat.mul_succ, Nat.add_sub_cancel]

/-- Full segments, or a last one, are stored where they were read. -/
theorem storeSegs_loadSegs (src : ℕ → UInt8) (fuel : ℕ) : ∀ (dst : ℕ → UInt8) (off len msgsz page : ℕ),
    len ≤ fuel → msgsz ≤ len → (msgsz ≤ msgMsgsegsz ∨ msgMsgsegsz ∣ msgsz) →
    storeSegs dst off msgsz (loadSegs src fuel off len page) =
      fun i => if off ≤ i ∧ i < off + msgsz then src i else dst i := by
  induction fuel with
  | zero =>
    intro dst off len msgsz page hfuel hle _
    obtain rfl : msgsz = 0 := by omega
    rw [storeSegs_zero]
    funext i
    rw [if_neg (by omega)]
  | succ fuel ih =>
    intro dst off len msgsz page hfuel hle hfull
    rcases Nat.eq_zero_or_pos msgsz with rfl | hpos
    · rw [storeSegs_zero]
      funext i
      rw [if_neg (by omega)]
    · have hlen : 0 < len := by omega
      rw [loadSegs, if_pos hlen, storeSegs_cons _ hpos, take_bytesAt (by omega)]
      rcases hfull with hlast | hdvd
      · -- the last segment
        have hleft : msgsz - min msgsz msgMsgsegsz = 0 := by omega
        rw [hleft, storeSegs_zero, Nat.min_eq_left hlast]
        funext i
        exact putBytes_bytesAt
      · obtain ⟨k, rfl⟩ := hdvd
        obtain ⟨k, rfl⟩ : ∃ j, k = j + 1 := ⟨k - 1, by
          have : k ≠ 0 := by
            rintro rfl
            exact absurd hpos (by decide)
          omega⟩
        -- a full one: both pointers move by the room of a segment, if anything is left
        obtain ⟨hseg, hmin, hsub⟩ := full_step msgMsgsegsz k
        have hload : min msgMsgsegsz len = msgMsgsegsz := Nat.min_eq_left (le_trans hseg hle)
        rw [hmin, hsub, hload]
        rcases Nat.eq_zero_or_pos k with rfl | hk
        · rw [Nat.mul_zero, storeSegs_zero, Nat.zero_add, Nat.mul_one]
          funext i
          exact putBytes_bytesAt
        · have hkle : msgMsgsegsz ≤ msgMsgsegsz * k := Nat.le_mul_of_pos_right msgMsgsegsz hk
          have hlen' : msgMsgsegsz * k ≤ len - msgMsgsegsz := by omega
          rw [Nat.min_eq_right hkle, Nat.min_eq_left (le_trans hkle hlen'),
            ih _ _ _ _ _ (by simp only [msgMsgsegsz] at hlen' ⊢; omega) hlen'
              (.inr (Nat.dvd_mul_right _ _))]
          have hend : off + msgMsgsegsz + msgMsgsegsz * k = off + msgMsgsegsz * (k + 1) := by omega
          funext i
          rw [putBytes_bytesAt, hend]
          exact ite_adjacent (src i) (dst i) (by omega) (by omega)

/-- A store that is done in one segment. -/
theorem storeSegs_of_le (hn : n ≤ msgMsgsegsz) (hi : i < off ∨ off + n ≤ i) :
    storeSegs dst off n segs i = dst i := by
  rcases Nat.eq_zero_or_pos n with rfl | hpos
  · rw [storeSegs_zero]
  · cases segs with
    | nil => rfl
    | cons sg segs =>
      have hleft : n - min n msgMsgsegsz = 0 := by omega
      rw [storeSegs_cons sg hpos, hleft, storeSegs_zero, Nat.min_eq_left hn]
      exact putBytes_of_notMem (List.length_take_le _ _) hi

/-- When a last segment is not full, the step before it is too short: the last byte is never
written. -/
theorem storeSegs_last (hlong : msgMsgsegsz < n) (hpart : ¬msgMsgsegsz ∣ n) :
    storeSegs dst off n segs (off + n - 1) = dst (off + n - 1) := by
  induction segs generalizing dst off n with
  | nil => rfl
  | cons sg segs ih =>
    have hmin : min n msgMsgsegsz = msgMsgsegsz := by omega
    have hstore : putBytes dst off (sg.data.take (min n msgMsgsegsz)) (off + n - 1) =
        dst (off + n - 1) := by
      rw [hmin]
      exact putBytes_of_notMem (List.length_take_le _ _) (.inr (by omega))
    rw [storeSegs_cons sg (by omega)]
    -- the rest is again too long, or it is the part of a segment
    have hrest : ¬msgMsgsegsz ∣ n - msgMsgsegsz := by
      intro hdvd
      refine hpart ?_
      have hadd := Nat.dvd_add hdvd (Nat.dvd_refl msgMsgsegsz)
      rwa [Nat.sub_add_cancel (by omega)] at hadd
    rcases Nat.lt_or_ge msgMsgsegsz (n - msgMsgsegsz) with hlt | hge
    · have hpos : off + min (n - min n msgMsgsegsz) msgMsgsegsz + (n - min n msgMsgsegsz) - 1 =
          off + n - 1 := by omega
      have hlast := @ih (putBytes dst off (sg.data.take (min n msgMsgsegsz)))
        (off + min (n - min n msgMsgsegsz) msgMsgsegsz) (n - min n msgMsgsegsz)
        (by rw [hmin]; exact hlt) (by rw [hmin]; exact hrest)
      rw [hpos] at hlast
      rw [hlast, hstore]
    · have hne : n - msgMsgsegsz ≠ msgMsgsegsz := by
        intro heq
        exact hrest (dvd_of_eq heq.symm)
      rw [storeSegs_of_le (by omega) (.inr (by omega)), hstore]

end Bytes

/-! ### Messages -/

section Messages

variable {src dst : Msgbuf} {len msgsz page : ℕ}

/-- At these sizes the content arrives. -/
theorem Whole.copies (h : Whole msgsz) (hle : msgsz ≤ len) : Copies len msgsz := by
  intro src dst page
  simp only [storeMsg, loadMsg]
  rw [take_bytesAt (by omega)]
  rcases Nat.le_total msgsz msgMsgsz with hsmall | hbig
  · -- it is all in the first page
    have hleft : msgsz - min msgMsgsz msgsz = 0 := by omega
    rw [hleft, storeSegs_zero, Nat.min_eq_left hsmall]
    funext i
    rw [putBytes_bytesAt]
    simp
  · have hfull : msgsz - msgMsgsz ≤ msgMsgsegsz ∨ msgMsgsegsz ∣ msgsz - msgMsgsz := by
      rcases h with h | h | h
      · exact .inl (by omega)
      · exact .inl (by omega)
      · exact .inr h
    have hstep : min msgMsgsz (msgsz - msgMsgsz) = msgMsgsz ∨ msgsz = msgMsgsz := by
      rcases h with h | h | h
      · exact .inr (by omega)
      · exact .inl (by omega)
      · rcases Nat.eq_zero_or_pos (msgsz - msgMsgsz) with h0 | hpos
        · exact .inr (by omega)
        · have := Nat.le_of_dvd hpos h
          simp only [msgMsgsegsz, msgMsgsz] at this ⊢
          exact .inl (by omega)
    rcases hstep with hstep | rfl
    · have hload : min msgMsgsz (len - min msgMsgsz len) = msgMsgsz := by omega
      rw [Nat.min_eq_left hbig, Nat.min_eq_right hbig, hstep, hload,
        storeSegs_loadSegs src.data _ _ _ _ _ _ (le_refl _) (by omega) hfull]
      have hend : msgMsgsz + (msgsz - msgMsgsz) = msgsz := by omega
      funext i
      rw [putBytes_bytesAt, hend, Nat.zero_add, ite_adjacent _ _ (Nat.zero_le _) hbig]
      simp
    · rw [Nat.min_self, Nat.sub_self, storeSegs_zero]
      funext i
      rw [putBytes_bytesAt]
      simp

/-- At the other sizes the last byte is not written. -/
theorem storeMsg_last {msg : MsgMsg} (h : ¬Whole msgsz) :
    (storeMsg dst msg msgsz).data (msgsz - 1) = dst.data (msgsz - 1) := by
  obtain ⟨hbig, hrest⟩ := not_or.mp h
  obtain ⟨hone, hpart⟩ := not_or.mp hrest
  have hhead : min msgMsgsz msgsz = msgMsgsz := by omega
  have hstore : putBytes dst.data 0 (msg.data.take (min msgsz msgMsgsz)) (msgsz - 1) =
      dst.data (msgsz - 1) :=
    putBytes_of_notMem (List.length_take_le _ _) (.inr (by omega))
  simp only [storeMsg]
  rw [hhead]
  rcases Nat.le_total (msgsz - msgMsgsz) msgMsgsegsz with hle | hlong
  · -- one segment, stored before the end of the first page
    have hshort : msgsz < 2 * msgMsgsz := by omega
    rw [storeSegs_of_le hle (.inr (by omega)), hstore]
  · have hne : msgsz - msgMsgsz ≠ msgMsgsegsz := by
      intro heq
      exact hpart (heq ▸ Nat.dvd_refl _)
    have hstep : min msgMsgsz (msgsz - msgMsgsz) = msgMsgsz := by
      simp only [msgMsgsegsz, msgMsgsz] at hlong ⊢
      omega
    have hlast := @storeSegs_last (putBytes dst.data 0 (msg.data.take (min msgsz msgMsgsz)))
      msgMsgsz (msgsz - msgMsgsz) msg.nxt (by omega) hpart
    have hpos : msgMsgsz + (msgsz - msgMsgsz) - 1 = msgsz - 1 := by omega
    rw [hpos] at hlast
    rw [hstep, hlast, hstore]

theorem not_copies (h : ¬Whole msgsz) : ¬Copies len msgsz := by
  intro hcopies
  have hpos : 0 < msgsz := by
    by_contra h0
    exact h (.inl (by omega))
  have hdata := congrFun (hcopies ⟨1, fun _ => 1⟩ ⟨0, fun _ => 0⟩ 0) (msgsz - 1)
  rw [storeMsg_last h, if_pos (by omega)] at hdata
  have hbytes : (0 : UInt8) = 1 := hdata
  cases hbytes

end Messages

/-- **The content of a message arrives** exactly when the size is `Whole`, and the steps of
`store_msg` are as long as what it writes. -/
theorem copies_iff (len msgsz : ℕ) (h : msgsz ≤ len) : Copies len msgsz ↔ Whole msgsz := by
  constructor
  · intro hcopies
    by_contra hnot
    exact not_copies hnot hcopies
  · intro hwhole
    exact hwhole.copies h

/-- A message of two segments. -/
theorem copies_two : Copies (msgMsgsz + 2 * msgMsgsegsz) (msgMsgsz + 2 * msgMsgsegsz) :=
  (copies_iff _ _ (le_refl _)).mpr (by decide)

/-- **A message of one byte more than fits into a page** loses this byte. -/
theorem not_copies_page : ¬Copies (msgMsgsz + 1) (msgMsgsz + 1) := not_copies (by decide)

end OsLab
