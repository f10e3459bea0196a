/-
The message that `sys_msgrcv` selects (`common/ipc.c`).

For a negative type the search goes on after a match, with `mtype` counted up by one, and takes
the last match.  A message of a small type may be passed over so, for one behind it whose type
is larger.

* `Wanted` — the message that is asked for: the first one, the first one of the type, or the
  first one of the smallest type up to a bound;
* `Settles` — the queues in which the search ends at the first message of the smallest type;
* `msgrcv_selects_iff` — the search selects what is asked for in these queues, and in no others.
-/
import OsLab.Common.IpcQueue

namespace OsLab

/-- What `mtype` asks for. -/
def Qualifies (mtype : ℤ) (msg : MsgMsg) : Prop :=
  mtype = 0 ∨ (0 < mtype ∧ msg.mtype = mtype) ∨ (mtype < 0 ∧ msg.mtype ≤ -mtype)

/-- The first message that qualifies or, for a negative type, the first one of the smallest
type among them; nothing when none qualifies. -/
def Wanted (mtype : ℤ) (msgs : List MsgMsg) : Option MsgMsg → Prop
  | none => ∀ m ∈ msgs, ¬Qualifies mtype m
  | some msg => ∃ front back, msgs = front ++ msg :: back ∧ Qualifies mtype msg ∧
      (∀ m ∈ front, Qualifies mtype m → mtype < 0 ∧ msg.mtype < m.mtype) ∧
      ∀ m ∈ back, Qualifies mtype m → mtype < 0 → msg.mtype ≤ m.mtype

/-- On the way to the first message of the smallest type, `bound` is lowered by one at every
message that is not above it; there it is 1, or no message behind is below it. -/
def Settles : ℤ → List MsgMsg → Prop
  | _, [] => True
  | bound, msg :: msgs =>
    if bound < msg.mtype then Settles bound msgs
    else if ∃ m ∈ msgs, m.mtype < msg.mtype then Settles (bound - 1) msgs
    else bound = 1 ∨ ∀ m ∈ msgs, bound ≤ m.mtype

instance decidableSettles : (bound : ℤ) → (msgs : List MsgMsg) → Decidable (Settles bound msgs)
  | _, [] => .isTrue trivial
  | bound, msg :: msgs =>
    have : Decidable (Settles bound msgs) := decidableSettles bound msgs
    have : Decidable (Settles (bound - 1) msgs) := decidableSettles (bound - 1) msgs
    inferInstanceAs (Decidable (if bound < msg.mtype then Settles bound msgs
      else if ∃ m ∈ msgs, m.mtype < msg.mtype then Settles (bound - 1) msgs
      else bound = 1 ∨ ∀ m ∈ msgs, bound ≤ m.mtype))

section Search

variable {mtype : ℤ} {msg m : MsgMsg} {msgs : List MsgMsg} {o : Option MsgMsg}

theorem testmsg_iff : testmsg mtype msg.mtype = true ↔ Qualifies mtype msg := by
  unfold testmsg Qualifies
  split
  · rename_i h0
    simp [h0]
  · split
    · rw [decide_eq_true_eq]
      omega
    · rw [decide_eq_true_eq]
      omega

/-! ### What is asked for -/

/-- A message that does not qualify does not matter. -/
theorem wanted_cons_of_not (h : ¬Qualifies mtype m) :
    Wanted mtype (m :: msgs) o ↔ Wanted mtype msgs o := by
  cases o with
  | none =>
    constructor
    · intro hw x hx
      exact hw x (List.mem_cons_of_mem m hx)
    · intro hw x hx
      rcases List.mem_cons.mp hx with rfl | hx
      · exact h
      · exact hw x hx
  | some msg =>
    constructor
    · rintro ⟨front, back, heq, hmsg, hfront, hback⟩
      cases front with
      | nil =>
        obtain ⟨rfl, -⟩ := List.cons_eq_cons.mp heq
        exact absurd hmsg h
      | cons x front =>
        obtain ⟨rfl, rfl⟩ := List.cons_eq_cons.mp heq
        exact ⟨front, back, rfl, hmsg, fun y hy => hfront y (List.mem_cons_of_mem m hy), hback⟩
    · rintro ⟨front, back, rfl, hmsg, hfront, hback⟩
      refine ⟨m :: front, back, rfl, hmsg, fun y hy hq => ?_, hback⟩
      rcases List.mem_cons.mp hy with rfl | hy
      · exact absurd hq h
      · exact hfront y hy hq

/-- Without a smaller one behind it, the first message that qualifies is asked for. -/
theorem wanted_cons_of_least (h : Qualifies mtype m)
    (hleast : mtype < 0 → ∀ x ∈ msgs, m.mtype ≤ x.mtype) :
    Wanted mtype (m :: msgs) o ↔ o = some m := by
  constructor
  · intro hw
    cases o with
    | none => exact absurd h (hw m List.mem_cons_self)
    | some msg =>
      obtain ⟨front, back, heq, -, hfront, -⟩ := hw
      cases front with
      | nil =>
        obtain ⟨rfl, -⟩ := List.cons_eq_cons.mp heq
        rfl
      | cons x front =>
        obtain ⟨rfl, rfl⟩ := List.cons_eq_cons.mp heq
        obtain ⟨hneg, hlt⟩ := hfront m List.mem_cons_self h
        have hle := hleast hneg msg (List.mem_append_right front List.mem_cons_self)
        omega
  · rintro rfl
    refine ⟨[], msgs, rfl, h, fun x hx => absurd hx List.not_mem_nil, fun x hx _ hneg => ?_⟩
    exact hleast hneg x hx

/-- With a smaller one behind it, the bound may be lowered. -/
theorem wanted_cons_of_smaller (hneg : mtype < -1) (h : Qualifies mtype m)
    (hsmaller : ∃ x ∈ msgs, x.mtype < m.mtype) :
    Wanted mtype (m :: msgs) o ↔ Wanted (mtype + 1) msgs o := by
  have hq : ∀ x, Qualifies mtype x ↔ x.mtype ≤ -mtype := by
    intro x
    unfold Qualifies
    omega
  have hq' : ∀ x, Qualifies (mtype + 1) x ↔ x.mtype ≤ -mtype - 1 := by
    intro x
    unfold Qualifies
    omega
  obtain ⟨y, hy, hlt⟩ := hsmaller
  have hm := (hq m).mp h
  cases o with
  | none =>
    refine iff_of_false (fun hw => hw m List.mem_cons_self h) fun hw => hw y hy ?_
    rw [hq']
    omega
  | some msg =>
    constructor
    · rintro ⟨front, back, heq, hmsg, hfront, hback⟩
      cases front with
      | nil =>
        obtain ⟨rfl, rfl⟩ := List.cons_eq_cons.mp heq
        have hle := hback y hy ((hq y).mpr (by omega)) (by omega)
        omega
      | cons x front =>
        obtain ⟨rfl, rfl⟩ := List.cons_eq_cons.mp heq
        have hmsg' := (hfront m List.mem_cons_self h).2
        refine ⟨front, back, rfl, (hq' msg).mpr (by omega), fun z hz hzq => ⟨by omega, ?_⟩,
          fun z hz hzq _ => ?_⟩
        · have hzm := (hq' z).mp hzq
          exact (hfront z (List.mem_cons_of_mem m hz) ((hq z).mpr (by omega))).2
        · have hzm := (hq' z).mp hzq
          exact hback z hz ((hq z).mpr (by omega)) (by omega)
    · rintro ⟨front, back, rfl, hmsg, hfront, hback⟩
      have hmsg' := (hq' msg).mp hmsg
      have hyq : Qualifies (mtype + 1) y := (hq' y).mpr (by omega)
      -- the smaller one is not below what is asked for
      have hle : msg.mtype ≤ y.mtype := by
        rcases List.mem_append.mp hy with hy | hy
        · exact Int.le_of_lt (hfront y hy hyq).2
        · rcases List.mem_cons.mp hy with rfl | hy
          · exact Int.le_refl _
          · exact hback y hy hyq (by omega)
      refine ⟨m :: front, back, rfl, (hq msg).mpr (by omega), fun z hz hzq => ⟨by omega, ?_⟩,
        fun z hz hzq _ => ?_⟩
      · rcases List.mem_cons.mp hz with rfl | hz
        · omega
        · by_cases hz' : z.mtype ≤ -mtype - 1
          · exact (hfront z hz ((hq' z).mpr hz')).2
          · omega
      · by_cases hz' : z.mtype ≤ -mtype - 1
        · exact hback z hz ((hq' z).mpr hz') (by omega)
        · omega

/-! ### What is found -/

/-- The search ends at the first match, unless `mtype` is below -1. -/
theorem wanted_search_of_le (hle : -1 ≤ mtype) (hpos : ∀ m ∈ msgs, 0 < m.mtype) :
    Wanted mtype msgs (searchMsg mtype none msgs) := by
  induction msgs with
  | nil => exact fun m hm => absurd hm List.not_mem_nil
  | cons m msgs ih =>
    have hrest := ih fun x hx => hpos x (List.mem_cons_of_mem m hx)
    rw [searchMsg]
    split
    · rename_i htest
      have hq := testmsg_iff.mp htest
      rw [if_neg (by omega), wanted_cons_of_least hq]
      intro hneg x hx
      have hx' := hpos x (List.mem_cons_of_mem m hx)
      unfold Qualifies at hq
      omega
    · rename_i htest
      rw [wanted_cons_of_not fun hq => htest (testmsg_iff.mpr hq)]
      exact hrest

/-- With a negative type, the last match is asked for exactly in queues that settle. -/
theorem wanted_matched_iff (hneg : mtype < 0) (hpos : ∀ m ∈ msgs, 0 < m.mtype) (hnodup : msgs.Nodup) :
    Wanted mtype msgs (matchedMsgs mtype msgs).getLast? ↔ Settles (-mtype) msgs := by
  induction msgs generalizing mtype with
  | nil => exact iff_of_true (fun m hm => absurd hm List.not_mem_nil) trivial
  | cons m msgs ih =>
    have hpos' : ∀ x ∈ msgs, 0 < x.mtype := fun x hx => hpos x (List.mem_cons_of_mem m hx)
    have hm := hpos m List.mem_cons_self
    obtain ⟨hnot, hnodup'⟩ := List.nodup_cons.mp hnodup
    rw [Settles, matchedMsgs]
    by_cases hq : Qualifies mtype m
    · have hle : ¬-mtype < m.mtype := by
        unfold Qualifies at hq
        omega
      rw [if_pos (testmsg_iff.mpr hq), if_neg hle]
      by_cases hone : mtype < -1
      · rw [if_pos hone]
        by_cases hsmaller : ∃ x ∈ msgs, x.mtype < m.mtype
        · -- a smaller one is behind: the search goes on to it
          obtain ⟨y, hy, hlt⟩ := id hsmaller
          have hsome : (matchedMsgs (mtype + 1) msgs).getLast? ≠ none := by
            intro hnone
            have hsearch : searchMsg (mtype + 1) none msgs = none := by
              rw [searchMsg_eq, hnone]
              rfl
            have htest := testmsg_of_search_none hsearch y hy
            have hyq : Qualifies (mtype + 1) y := by
              unfold Qualifies
              omega
            rw [testmsg_iff.mpr hyq] at htest
            cases htest
          obtain ⟨x, hx⟩ := Option.ne_none_iff_exists'.mp hsome
          have hlast : (m :: matchedMsgs (mtype + 1) msgs).getLast? =
              (matchedMsgs (mtype + 1) msgs).getLast? := by
            rw [List.getLast?_cons, hx]
            rfl
          have hbound : -mtype - 1 = -(mtype + 1) := by omega
          rw [if_pos hsmaller, hlast, wanted_cons_of_smaller hone hq hsmaller, hbound]
          exact ih (by omega) hpos' hnodup'
        · -- this one is asked for: nothing may be matched behind it
          have hleast : ∀ x ∈ msgs, m.mtype ≤ x.mtype := by
            intro x hx
            by_contra hlt
            exact hsmaller ⟨x, hx, Int.not_le.mp hlt⟩
          rw [if_neg hsmaller, wanted_cons_of_least hq fun _ => hleast, List.getLast?_cons]
          cases hmatched : (matchedMsgs (mtype + 1) msgs).getLast? with
          | none =>
            refine iff_of_true rfl (.inr fun x hx => ?_)
            have hsearch : searchMsg (mtype + 1) none msgs = none := by
              rw [searchMsg_eq, hmatched]
              rfl
            have htest := testmsg_of_search_none hsearch x hx
            by_contra hlt
            have hxq : Qualifies (mtype + 1) x := by
              unfold Qualifies
              omega
            rw [testmsg_iff.mpr hxq] at htest
            cases htest
          | some x =>
            have hxmatched := List.mem_of_getLast? hmatched
            obtain ⟨pre, hpre⟩ : ∃ pre, matchedMsgs (mtype + 1) msgs = pre ++ [x] :=
              ⟨_, (List.dropLast_append_getLast? x hmatched).symm⟩
            obtain ⟨front, back, hsplit, -, -⟩ := split_of_matched hpre
            have hx : x ∈ msgs := by
              rw [hsplit]
              exact List.mem_append_right front List.mem_cons_self
            refine iff_of_false (fun heq => ?_) ?_
            · obtain rfl : x = m := Option.some.inj heq
              exact hnot hx
            · have hxq := testmsg_iff.mp (testmsg_of_matched _ hxmatched)
              unfold Qualifies at hxq
              rintro (hb | hb)
              · omega
              · have := hb x hx
                omega
      · -- the bound is 1, and a message of type 1 ends the search
        have hnosmaller : ¬∃ x ∈ msgs, x.mtype < m.mtype := by
          rintro ⟨x, hx, hlt⟩
          have := hpos' x hx
          omega
        rw [if_neg hone, if_neg hnosmaller, wanted_cons_of_least hq fun _ x hx => by
          have := hpos' x hx
          omega]
        exact iff_of_true rfl (.inl (by omega))
    · have hlt : -mtype < m.mtype := by
        unfold Qualifies at hq
        omega
      rw [if_neg fun htest => hq (testmsg_iff.mp htest), if_pos hlt, wanted_cons_of_not hq]
      exact ih hneg hpos' hnodup'

/-- The search selects what is asked for. -/
theorem wanted_search_iff (hpos : ∀ m ∈ msgs, 0 < m.mtype) (hnodup : msgs.Nodup) :
    Wanted mtype msgs (searchMsg mtype none msgs) ↔ -1 ≤ mtype ∨ Settles (-mtype) msgs := by
  by_cases hle : -1 ≤ mtype
  · exact iff_of_true (wanted_search_of_le hle hpos) (.inl hle)
  · rw [searchMsg_eq, Option.or_none, wanted_matched_iff (by omega) hpos hnodup]
    exact (or_iff_right hle).symm

end Search

namespace IpcState

variable {s t : IpcState} {p id : ℕ} {q : MsgQueue} {msgid msgsz mtype : ℤ} {msgflg : BitVec 32}

/-- The messages of the queue in a slot. -/
def messages (s : IpcState) (id : ℕ) : Option (List MsgMsg) :=
  (s.ids.entries id).map MsgQueue.q_message

/-- `sys_msgrcv` selects what is asked for, and takes this message alone out of the queue, if
the buffer has room for it. -/
structure Selects (s : IpcState) (p id : ℕ) (q : MsgQueue) (msgid msgsz mtype : ℤ)
    (msgflg : BitVec 32) : Prop where
  wanted : Wanted mtype q.q_message (searchMsg mtype none q.q_message)
  taken : ∀ msg, searchMsg mtype none q.q_message = some msg → msg.size ≤ msgsz →
    ∃ t front back, s.rcvSection p msgid msgsz mtype msgflg = some t ∧
      q.q_message = front ++ msg :: back ∧ t.messages id = some (front ++ back) ∧
      t.pc p = .storing msg (min msgsz msg.size)
  /-- otherwise it waits or returns an error -/
  kept : (∀ msg, searchMsg mtype none q.q_message = some msg → msgsz < msg.size) →
    ∃ t, s.rcvSection p msgid msgsz mtype msgflg = some t ∧ t.messages id = some q.q_message

/-- Whatever is selected, the other messages stay in order. -/
theorem selects_iff (hget : s.ids.getMsgq msgid = .found id q) (hentry : s.ids.entries id = some q)
    (hnodup : q.q_message.Nodup) : s.Selects p id q msgid msgsz mtype msgflg ↔
      Wanted mtype q.q_message (searchMsg mtype none q.q_message) := by
  refine ⟨Selects.wanted, fun hwanted => ⟨hwanted, fun msg hmsg hsize => ?_, fun hnone => ?_⟩⟩
  · obtain ⟨-, -, hmem⟩ := mem_of_search hmsg
    obtain ⟨front, back, hsplit⟩ := List.append_of_mem hmem
    have hnot : msg ∉ front := by
      rw [hsplit] at hnodup
      intro hmem
      exact (List.nodup_append.mp hnodup).2.2 msg hmem msg List.mem_cons_self rfl
    simp only [rcvSection, hget, hmsg, if_neg (Int.not_lt.mpr hsize)]
    refine ⟨_, front, back, rfl, hsplit, ?_, Function.update_self _ _ _⟩
    show (Function.update s.ids.entries id _ id).map MsgQueue.q_message = _
    rw [Function.update_self, Option.map_some, hsplit, List.erase_append_right _ hnot,
      List.erase_cons_head]
  · unfold rcvSection
    rw [hget]
    dsimp only
    cases hsearch : searchMsg mtype none q.q_message with
    | some msg =>
      dsimp only
      rw [if_pos (hnone msg hsearch)]
      exact ⟨_, rfl, congrArg (Option.map MsgQueue.q_message) hentry⟩
    | none =>
      dsimp only
      split
      · exact ⟨_, rfl, congrArg (Option.map MsgQueue.q_message) hentry⟩
      · refine ⟨_, rfl, ?_⟩
        show (Function.update s.ids.entries id _ id).map MsgQueue.q_message = _
        rw [Function.update_self]
        rfl

end IpcState

/-- **What `sys_msgrcv` selects** is what is asked for exactly when the type is at least -1 or
the search settles. -/
theorem msgrcv_selects_iff (s : IpcState) (p id : ℕ) (q : MsgQueue) (msgid msgsz mtype : ℤ)
    (msgflg : BitVec 32) (hget : s.ids.getMsgq msgid = .found id q)
    (hpos : ∀ m ∈ q.q_message, 0 < m.mtype) (hnodup : q.q_message.Nodup) :
    s.Selects p id q msgid msgsz mtype msgflg ↔ -1 ≤ mtype ∨ Settles (-mtype) q.q_message := by
  rw [IpcState.selects_iff hget (IpcIds.of_found hget).1 hnodup]
  exact wanted_search_iff hpos hnodup

namespace IpcState

/-- Two messages in a queue, and a receiver that asks for types up to a bound. -/
def searchRun (types : List ℤ) : List IpcStep :=
  (types.zipIdx.flatMap fun x => [.msgsnd x.2 0 (some ⟨x.1, fun _ => 7⟩) 1 0, .run x.2])

end IpcState

/-- Of messages of types 5, 3 and 4, the one of type 3 is selected for a bound of 5. -/
theorem msgrcv_selects_three : ∃ (s : IpcState) (q : MsgQueue),
    ipcSystem.Reachable (fun _ _ => True) s ∧ q.q_message.map MsgMsg.mtype = [5, 3, 4] ∧
    s.Selects 9 0 q 0 1 (-5) 0 := by
  have hrun : (ipcSystem.exec (fun _ _ => True) .new (IpcState.searchRun [5, 3, 4])).map
      (fun s => (s.ids.size, s.ids.entries 0)) = some (16, some ⟨0, 256, 3,
        [⟨0, 5, 1, [7], []⟩, ⟨1, 3, 1, [7], []⟩, ⟨2, 4, 1, [7], []⟩], [], []⟩) := by
    decide
  obtain ⟨s, hs, heq⟩ := Option.map_eq_some_iff.mp hrun
  obtain ⟨hsize, hentry⟩ := Prod.mk.inj heq
  have hget := IpcState.getMsgq_zero hsize hentry rfl
  refine ⟨s, ⟨0, 256, 3, [⟨0, 5, 1, [7], []⟩, ⟨1, 3, 1, [7], []⟩, ⟨2, 4, 1, [7], []⟩], [], []⟩,
    ⟨_, IpcState.init_new, System.leads_of_exec hs⟩, rfl, ?_⟩
  exact (msgrcv_selects_iff s 9 0 _ 0 1 (-5) 0 hget (by decide) (by decide)).mpr (by decide)

/-- **The wrong message is selected**: of messages of types 1 and 3, the one of type 3 for a
bound of 5. -/
theorem msgrcv_selects_larger : ∃ (s : IpcState) (q : MsgQueue),
    ipcSystem.Reachable (fun _ _ => True) s ∧ s.ids.getMsgq 0 = .found 0 q ∧
    q.q_message.map MsgMsg.mtype = [1, 3] ∧
    (searchMsg (-5) none q.q_message).map MsgMsg.mtype = some 3 ∧
    ¬s.Selects 9 0 q 0 1 (-5) 0 := by
  have hrun : (ipcSystem.exec (fun _ _ => True) .new (IpcState.searchRun [1, 3])).map
      (fun s => (s.ids.size, s.ids.entries 0)) = some (16, some ⟨0, 256, 2,
        [⟨0, 1, 1, [7], []⟩, ⟨1, 3, 1, [7], []⟩], [], []⟩) := by
    decide
  obtain ⟨s, hs, heq⟩ := Option.map_eq_some_iff.mp hrun
  obtain ⟨hsize, hentry⟩ := Prod.mk.inj heq
  have hget := IpcState.getMsgq_zero hsize hentry rfl
  refine ⟨s, ⟨0, 256, 2, [⟨0, 1, 1, [7], []⟩, ⟨1, 3, 1, [7], []⟩], [], []⟩,
    ⟨_, IpcState.init_new, System.leads_of_exec hs⟩, hget, rfl, by decide, ?_⟩
  intro hselects
  have hwanted := (wanted_search_iff (by decide) (by decide)).mp hselects.wanted
  revert hwanted
  decide

end OsLab
