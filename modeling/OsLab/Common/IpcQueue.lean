/-
One message queue and its senders and receivers (`sys_msgsnd` and `sys_msgrcv` of
`common/ipc.c`).

* `IpcState.Change`, `change_of_step` — what a section can do;
* `Waiting`, `Custody`, `Ordered` — who waits and why, where each message and its pages
  are, and in which order messages of a type are received;
* `IpcState.InOrder` — a search of `sys_msgrcv` that counts `mtype` up does not go past a
  message of the type that it ends with;
* `ipc_sound` — in the runs of such searches a queue is sound; the first search that is
  not so overtakes a message.
-/
import OsLab.Common.Ipc
import OsLab.Lib.Custody
import Mathlib.Data.List.Range
import Mathlib.Tactic.Common

namespace OsLab

/-! ### The search -/

/-- The messages at which the search of `sys_msgrcv` sets `found_msg`. -/
def matchedMsgs : ℤ → List MsgMsg → List MsgMsg
  | _, [] => []
  | mtype, msg :: msgs =>
    if testmsg mtype msg.mtype then
      msg :: (if mtype < -1 then matchedMsgs (mtype + 1) msgs else [])
    else matchedMsgs mtype msgs

/-- The search takes the last of them. -/
theorem searchMsg_eq (mtype : ℤ) (found : Option MsgMsg) (msgs : List MsgMsg) :
    searchMsg mtype found msgs = (matchedMsgs mtype msgs).getLast?.or found := by
  induction msgs generalizing mtype found with
  | nil => simp [searchMsg, matchedMsgs]
  | cons msg msgs ih =>
    simp only [searchMsg, matchedMsgs]
    split
    · split
      · rw [ih, List.getLast?_cons]
        cases (matchedMsgs (mtype + 1) msgs).getLast? <;> rfl
      · rfl
    · exact ih mtype found

/-- Counting `mtype` up makes the search stricter. -/
theorem testmsg_of_succ {mtype type : ℤ} (hlt : mtype < -1)
    (h : testmsg (mtype + 1) type = true) : testmsg mtype type = true := by
  unfold testmsg at h ⊢
  rw [if_neg (by omega), if_pos (by omega), decide_eq_true_eq] at h ⊢
  omega

theorem testmsg_of_matched {msgs : List MsgMsg} {msg : MsgMsg} (mtype : ℤ)
    (h : msg ∈ matchedMsgs mtype msgs) : testmsg mtype msg.mtype = true := by
  induction msgs generalizing mtype with
  | nil => cases h
  | cons m msgs ih =>
    simp only [matchedMsgs] at h
    split at h
    · rename_i htest
      rcases List.mem_cons.mp h with rfl | h
      · exact htest
      · split at h
        · rename_i hlt
          exact testmsg_of_succ hlt (ih _ h)
        · cases h
    · exact ih _ h

/-- No message matches when the search finds none. -/
theorem testmsg_of_search_none {msgs : List MsgMsg} {mtype : ℤ}
    (h : searchMsg mtype none msgs = none) : ∀ msg ∈ msgs, testmsg mtype msg.mtype = false := by
  rw [searchMsg_eq, Option.or_none, List.getLast?_eq_none_iff] at h
  induction msgs with
  | nil => simp
  | cons m msgs ih =>
    simp only [matchedMsgs] at h
    split at h
    · cases h
    · rename_i htest
      intro msg hmsg
      rcases List.mem_cons.mp hmsg with rfl | hmsg
      · simpa using htest
      · exact ih h msg hmsg

/-- The messages before the one that is taken: those of its type have all matched. -/
theorem split_of_matched {msgs pre : List MsgMsg} {msg : MsgMsg} {mtype : ℤ}
    (h : matchedMsgs mtype msgs = pre ++ [msg]) : ∃ front back, msgs = front ++ msg :: back ∧
      (∀ m ∈ front, m.mtype = msg.mtype → m ∈ pre) ∧ ∀ m ∈ pre, m ∈ front := by
  induction msgs generalizing mtype pre with
  | nil => simp [matchedMsgs] at h
  | cons m msgs ih =>
    simp only [matchedMsgs] at h
    split at h
    · cases pre with
      | nil =>
        obtain ⟨rfl, -⟩ := List.cons_eq_cons.mp h
        exact ⟨[], msgs, rfl, by simp, by simp⟩
      | cons m' pre =>
        obtain ⟨rfl, htail⟩ := List.cons_eq_cons.mp h
        split at htail
        · obtain ⟨front, back, rfl, htype, hpre⟩ := ih htail
          refine ⟨m :: front, back, rfl, fun x hx heq => ?_, fun x hx => ?_⟩
          · rcases List.mem_cons.mp hx with rfl | hx
            · exact List.mem_cons_self
            · exact List.mem_cons_of_mem _ (htype x hx heq)
          · rcases List.mem_cons.mp hx with rfl | hx
            · exact List.mem_cons_self
            · exact List.mem_cons_of_mem _ (hpre x hx)
        · simp at htail
    · rename_i htest
      obtain ⟨front, back, rfl, htype, hpre⟩ := ih h
      refine ⟨m :: front, back, rfl, fun x hx heq => ?_, fun x hx =>
        List.mem_cons_of_mem _ (hpre x hx)⟩
      rcases List.mem_cons.mp hx with rfl | hx
      · -- a message of that type would have matched here
        have hmsg := testmsg_of_matched mtype (h ▸ List.mem_append_right pre (List.mem_singleton_self _))
        rw [← heq] at hmsg
        exact absurd hmsg htest
      · exact htype x hx heq

/-- A search with a bound goes past a message of the type that it ends with, and takes
the later one. -/
def Overtakes (mtype msgsz : ℤ) (msgs : List MsgMsg) : Prop :=
  ∃ msg ∈ (matchedMsgs mtype msgs).getLast?, msg.size ≤ msgsz ∧
    ∃ m ∈ (matchedMsgs mtype msgs).dropLast, m.mtype = msg.mtype

instance (mtype msgsz : ℤ) (msgs : List MsgMsg) : Decidable (Overtakes mtype msgsz msgs) := by
  unfold Overtakes
  infer_instance

/-! ### Handing over -/

/-- A message that is not handed over matches no receiver. -/
theorem pipelineSend_none {msg : MsgMsg} {rs : List MsgReceiver}
    (h : pipelineSend msg rs = some none) : ∀ r ∈ rs, testmsg r.mtype msg.mtype = false := by
  induction rs with
  | nil => simp
  | cons r rs ih =>
    simp only [pipelineSend] at h
    split at h
    · split at h <;> cases h
    · rename_i htest
      obtain ⟨o, ho, hmap⟩ := Option.map_eq_some_iff.mp h
      obtain rfl := Option.map_eq_none_iff.mp hmap
      intro x hx
      rcases List.mem_cons.mp hx with rfl | hx
      · simpa using htest
      · exact ih ho x hx

/-- A message that is handed over goes to one receiver, whom it matches. -/
theorem pipelineSend_some {msg : MsgMsg} {rs rs' : List MsgReceiver} {r : MsgReceiver}
    (h : pipelineSend msg rs = some (some (r, rs'))) : testmsg r.mtype msg.mtype = true ∧
      ∃ front back, rs = front ++ r :: back ∧ rs' = front ++ back := by
  induction rs generalizing rs' with
  | nil => simp [pipelineSend] at h
  | cons x rs ih =>
    simp only [pipelineSend] at h
    split at h
    · rename_i htest
      split at h
      · cases h
      · cases h
        exact ⟨htest, [], rs, rfl, rfl⟩
    · obtain ⟨o, ho, hmap⟩ := Option.map_eq_some_iff.mp h
      obtain ⟨y, hy, heq⟩ := Option.map_eq_some_iff.mp hmap
      cases heq
      subst hy
      obtain ⟨htest, front, back, rfl, hrs⟩ := ih ho
      exact ⟨htest, x :: front, back, rfl, by rw [hrs]; rfl⟩

/-! ### Loading -/

theorem pages_loadSegs (src : ℕ → UInt8) (fuel off len page : ℕ) :
    (loadSegs src fuel off len page).map MsgSeg.page
      = List.range' page (loadSegs src fuel off len page).length := by
  induction fuel generalizing off len page with
  | zero => rfl
  | succ fuel ih =>
    simp only [loadSegs]
    split
    · simp only [List.map_cons, List.length_cons, List.range'_succ, ih]
    · rfl

/-- A message takes the next pages. -/
theorem mem_pages_loadMsg {msgp : Msgbuf} {len page n : ℕ} :
    n ∈ (loadMsg msgp len page).pages ↔
      page ≤ n ∧ n < page + (loadMsg msgp len page).pages.length := by
  simp only [MsgMsg.pages, loadMsg, pages_loadSegs, List.mem_append, List.mem_range'_1,
    List.mem_singleton, List.length_append, List.length_range', List.length_singleton]
  omega

theorem nodup_pages_loadMsg {msgp : Msgbuf} {len page : ℕ} :
    (loadMsg msgp len page).pages.Nodup := by
  simp only [MsgMsg.pages, loadMsg, pages_loadSegs]
  refine List.nodup_append.mpr ⟨List.nodup_range', List.nodup_singleton _, fun a ha b hb => ?_⟩
  rw [List.mem_singleton.mp hb]
  have hle := (List.mem_range'_1.mp ha).1
  omega

/-! ### What a section can do -/

namespace IpcPc

/-- The message that the process is about to send. -/
def sends : IpcPc → Option MsgMsg
  | .sending _ msg _ | .sendAsleep _ msg _ => some msg
  | _ => none

/-- The message that the process has been given and not yet returned. -/
def given (r : RMsg) : IpcPc → Option MsgMsg
  | .storing msg _ => some msg
  | .recvWoken _ =>
    match r with
    | .msg msg => some msg
    | _ => none
  | _ => none

/-- The process is on a list of the queue. -/
def asleep : IpcPc → Bool
  | .sendAsleep .. | .recvAsleep _ => true
  | _ => false

/-- The process has nothing to do with a message or a list. -/
def Calm (r : RMsg) (c : IpcPc) : Prop := c.sends = none ∧ c.given r = none ∧ c.asleep = false

end IpcPc

/-- The process that takes the step. -/
def IpcStep.proc : IpcStep → ℕ
  | .msgsnd p .. | .msgrcv p .. | .run p => p

namespace IpcState

variable {s s' : IpcState} {id : ℕ} {q q' : MsgQueue} {p : ℕ}

/-- The table has one queue. -/
structure Table (s : IpcState) (id : ℕ) (q : MsgQueue) : Prop where
  lt : (id : ℤ) < 16
  ids : s.ids = ⟨16, 1, Function.update (fun _ => none) id (some q)⟩

/-- What a section of process `p` makes of the queue and the state. -/
inductive Change (s : IpcState) (id : ℕ) (q : MsgQueue) (p : ℕ) : MsgQueue → IpcState → Prop
  /-- a call begins or fails, without a message -/
  | quiet (c : IpcPc) (buf : ℕ → Msgbuf) (hp : (s.pc p).Calm (s.rMsg p)) (hc : ∀ r, c.Calm r) :
      Change s id q p q { s with pc := Function.update s.pc p c, buf := buf }
  | load (msgid : ℤ) (msgp : Msgbuf) (len : ℕ) (msgflg : BitVec 32)
      (hp : (s.pc p).Calm (s.rMsg p)) : Change s id q p q { s with
        pc := Function.update s.pc p (.sending msgid (loadMsg msgp len s.nextPage) msgflg)
        nextPage := s.nextPage + (loadMsg msgp len s.nextPage).pages.length }
  /-- `sys_msgsnd` fails -/
  | drop (msgid : ℤ) (msg : MsgMsg) (msgflg : BitVec 32) (err : ℤ)
      (hp : s.pc p = .sending msgid msg msgflg) : Change s id q p q ((s.freeMsg msg).ret p err)
  | sendSleep (msgid : ℤ) (msg : MsgMsg) (msgflg : BitVec 32)
      (hp : s.pc p = .sending msgid msg msgflg) (hfull : q.max_msg < q.sum_msg + 1) :
      Change s id q p { q with q_sender := q.q_sender ++ [p] }
        { s.setQueue id { q with q_sender := q.q_sender ++ [p] } with
          pc := Function.update s.pc p (.sendAsleep msgid msg msgflg) }
  /-- a waiting receiver gets the message -/
  | hand (msgid : ℤ) (msg : MsgMsg) (msgflg : BitVec 32) (r : MsgReceiver) (rs : List MsgReceiver)
      (hp : s.pc p = .sending msgid msg msgflg)
      (hsend : pipelineSend msg q.q_receiver = some (some (r, rs))) :
      Change s id q p { q with q_receiver := rs }
        { s.setQueue id { q with q_receiver := rs } with
          pc := Function.update (activate s.pc r.proc) p (.out 0)
          rMsg := Function.update s.rMsg r.proc (.msg msg)
          sent := s.sent ++ [msg]
          received := s.received ++ [msg] }
  | enqueue (msgid : ℤ) (msg : MsgMsg) (msgflg : BitVec 32)
      (hp : s.pc p = .sending msgid msg msgflg) (hroom : ¬ q.max_msg < q.sum_msg + 1)
      (hsend : pipelineSend msg q.q_receiver = some none) :
      Change s id q p { q with q_message := q.q_message ++ [msg], sum_msg := q.sum_msg + 1 }
        { (s.setQueue id
            { q with q_message := q.q_message ++ [msg], sum_msg := q.sum_msg + 1 }).ret p 0 with
          sent := s.sent ++ [msg] }
  /-- `sys_msgrcv` finds a message -/
  | take (msgid msgsz mtype : ℤ) (msgflg : BitVec 32) (msg : MsgMsg)
      (hp : s.pc p = .receiving msgid msgsz mtype msgflg)
      (hget : s.ids.getMsgq msgid = .found id q)
      (hsearch : searchMsg mtype none q.q_message = some msg) (hsize : msg.size ≤ msgsz) :
      Change s id q p
        { q with q_message := q.q_message.erase msg, sum_msg := q.sum_msg - 1, q_sender := [] }
        { s.setQueue id
            { q with q_message := q.q_message.erase msg, sum_msg := q.sum_msg - 1, q_sender := [] }
          with
          pc := Function.update (ssWakeup s.pc q.q_sender) p (.storing msg (min msgsz msg.size))
          received := s.received ++ [msg] }
  | recvSleep (msgid msgsz mtype : ℤ) (msgflg : BitVec 32)
      (hp : s.pc p = .receiving msgid msgsz mtype msgflg)
      (hsearch : searchMsg mtype none q.q_message = none) :
      Change s id q p { q with q_receiver := q.q_receiver ++ [⟨p, mtype, msgsz⟩] }
        { s.setQueue id { q with q_receiver := q.q_receiver ++ [⟨p, mtype, msgsz⟩] } with
          pc := Function.update s.pc p (.recvAsleep msgsz)
          rMsg := Function.update s.rMsg p .unset }
  /-- a receiver that has been woken reads `r_msg` -/
  | pickup (msg : MsgMsg) (msgsz : ℤ) (hp : s.pc p = .recvWoken msgsz) (hr : s.rMsg p = .msg msg) :
      Change s id q p q
        { s with pc := Function.update s.pc p (.storing msg (min msgsz msg.size)) }
  | store (msg : MsgMsg) (msgsz : ℤ) (hp : s.pc p = .storing msg msgsz) :
      Change s id q p q (s.store p msg msgsz)

theorem getMsgq_of_table (h : s.Table id q) {msgid : ℤ} {id' : ℕ}
    (hget : s.ids.getMsgq msgid = .found id' q') : id' = id ∧ q' = q := by
  simp only [IpcIds.getMsgq, h.ids] at hget
  split_ifs at hget
  by_cases hid : (msgid.tmod seqMultiplier).toNat = id
  · rw [hid, Function.update_self] at hget
    dsimp only at hget
    split_ifs at hget
    cases hget
    exact ⟨rfl, rfl⟩
  · rw [Function.update_of_ne hid] at hget
    cases hget

theorem calm_of_idle (h : s.Idle p) : (s.pc p).Calm (s.rMsg p) := by
  obtain ⟨r, hr⟩ := h
  rw [hr]
  exact ⟨rfl, rfl, rfl⟩

theorem calm_out (r : RMsg) (ret : ℤ) : (IpcPc.out ret).Calm r := ⟨rfl, rfl, rfl⟩

/-- A process returns without having had a message. -/
theorem change_ret (hp : (s.pc p).Calm (s.rMsg p)) (r : ℤ) : Change s id q p q (s.ret p r) :=
  .quiet (.out r) s.buf hp fun _ => calm_out _ _

theorem change_sndSection (h : s.Table id q) {msgid : ℤ} {msg : MsgMsg} {msgflg : BitVec 32}
    (hp : s.pc p = .sending msgid msg msgflg) (hs : s.sndSection p msgid msg msgflg = some s') :
    ∃ q', Change s id q p q' s' := by
  unfold sndSection at hs
  split at hs
  · cases hs
  · cases hs
    exact ⟨_, .drop msgid msg msgflg errIdrm hp⟩
  · rename_i id' q'' hget
    obtain ⟨rfl, rfl⟩ := getMsgq_of_table h hget
    split at hs
    · rename_i hfull
      split at hs
      · cases hs
        exact ⟨_, .drop msgid msg msgflg errAgain hp⟩
      · cases hs
        exact ⟨_, .sendSleep msgid msg msgflg hp hfull⟩
    · rename_i hroom
      obtain ⟨o, ho, rfl⟩ := Option.map_eq_some_iff.mp hs
      cases o with
      | some x => exact ⟨_, .hand msgid msg msgflg x.1 x.2 hp ho⟩
      | none => exact ⟨_, .enqueue msgid msg msgflg hp hroom ho⟩

theorem change_rcvSection (h : s.Table id q) {msgid msgsz mtype : ℤ} {msgflg : BitVec 32}
    (hp : s.pc p = .receiving msgid msgsz mtype msgflg)
    (hs : s.rcvSection p msgid msgsz mtype msgflg = some s') : ∃ q', Change s id q p q' s' := by
  have hcalm : (s.pc p).Calm (s.rMsg p) := by
    rw [hp]
    exact ⟨rfl, rfl, rfl⟩
  unfold rcvSection at hs
  split at hs
  · cases hs
  · cases hs
    exact ⟨_, change_ret hcalm _⟩
  · rename_i id' q'' hget
    obtain ⟨rfl, rfl⟩ := getMsgq_of_table h hget
    split at hs
    · rename_i msg hsearch
      split at hs
      · cases hs
        exact ⟨_, change_ret hcalm _⟩
      · rename_i hsize
        cases hs
        exact ⟨_, .take msgid msgsz mtype msgflg msg hp hget hsearch (Int.not_lt.mp hsize)⟩
    · rename_i hsearch
      split at hs
      · cases hs
        exact ⟨_, change_ret hcalm _⟩
      · cases hs
        exact ⟨_, .recvSleep msgid msgsz mtype msgflg hp hsearch⟩

theorem change_run (h : s.Table id q) (hs : s.run p = some s') :
    ∃ q', Change s id q p q' s' := by
  unfold run at hs
  split at hs
  · rename_i hp
    exact change_sndSection h hp hs
  · rename_i hp
    exact change_rcvSection h hp hs
  · rename_i msgsz hp
    split at hs
    · cases hs
    · rename_i hr
      cases hs
      refine ⟨_, change_ret ?_ _⟩
      rw [hp, hr]
      exact ⟨rfl, rfl, rfl⟩
    · rename_i msg hr
      cases hs
      exact ⟨_, .pickup msg msgsz hp hr⟩
  · rename_i msg msgsz hp
    cases hs
    exact ⟨_, .store msg msgsz hp⟩
  · cases hs
  · cases hs
  · cases hs

theorem change_of_step {l : IpcStep} (h : s.Table id q) (hs : s.step l = some s') :
    ∃ q', Change s id q l.proc q' s' := by
  cases l with
  | msgsnd p msgid msgp msgsz msgflg =>
    simp only [step] at hs
    split at hs
    · rename_i hidle
      have hcalm := calm_of_idle hidle
      cases hs
      unfold msgsnd
      split
      · exact ⟨_, change_ret hcalm _⟩
      · split
        · exact ⟨_, change_ret hcalm _⟩
        · exact ⟨_, .load msgid _ msgsz.toNat msgflg hcalm⟩
    · cases hs
  | msgrcv p msgid msgp msgsz mtype msgflg =>
    simp only [step] at hs
    split at hs
    · rename_i hidle
      have hcalm := calm_of_idle hidle
      cases hs
      unfold msgrcv
      split
      · exact ⟨_, change_ret hcalm _⟩
      · split
        · exact ⟨_, change_ret hcalm _⟩
        · exact ⟨_, .quiet _ _ hcalm fun _ => ⟨rfl, rfl, rfl⟩⟩
    · cases hs
  | run p => exact change_run h hs

/-- The table keeps its one queue. -/
theorem table_of_change (h : s.Table id q) (hc : Change s id q p q' s') : s'.Table id q' := by
  have hset : ∀ q', (s.setQueue id q').ids
      = ⟨16, 1, Function.update (fun _ => none) id (some q')⟩ := by
    intro q'
    simp only [setQueue, h.ids, Function.update_idem]
  refine ⟨h.lt, ?_⟩
  cases hc with
  | quiet => exact h.ids
  | load => exact h.ids
  | drop => exact h.ids
  | pickup => exact h.ids
  | store => exact h.ids
  | _ => exact hset _

/-- A call that fails leaves the queues as they were. -/
theorem ids_of_failed {err : ℤ} (hc : Change s id q p q' s') (herr : err < 0)
    (hp : s'.pc p = .out err) : s'.ids = s.ids := by
  cases hc with
  | sendSleep => simp at hp
  | hand =>
    simp only [Function.update_self] at hp
    cases hp
    cases herr
  | enqueue =>
    simp only [ret, Function.update_self] at hp
    cases hp
    cases herr
  | take => simp at hp
  | recvSleep => simp at hp
  | _ => rfl

/-! ### Who waits, and why -/

/-- The numbers of the queue are right, and whoever is on its lists has a reason. -/
structure Fits (q : MsgQueue) : Prop where
  sum : q.sum_msg = q.q_message.length
  room : q.sum_msg ≤ q.max_msg
  full : q.q_sender ≠ [] → q.sum_msg = q.max_msg
  unmatched : ∀ r ∈ q.q_receiver, ∀ m ∈ q.q_message, testmsg r.mtype m.mtype = false

theorem mem_of_search {mtype : ℤ} {msg : MsgMsg} {msgs : List MsgMsg}
    (h : searchMsg mtype none msgs = some msg) :
    ∃ pre, matchedMsgs mtype msgs = pre ++ [msg] ∧ msg ∈ msgs := by
  rw [searchMsg_eq, Option.or_none] at h
  obtain ⟨pre, hpre⟩ := List.getLast?_eq_some_iff.mp h
  obtain ⟨front, back, rfl, -⟩ := split_of_matched hpre
  exact ⟨pre, hpre, by simp⟩

theorem fits_of_change (h : Fits q) (hc : Change s id q p q' s') : Fits q' := by
  cases hc with
  | sendSleep msgid msg msgflg hp hfull =>
    refine ⟨h.sum, h.room, fun _ => ?_, h.unmatched⟩
    have hroom := h.room
    dsimp only
    omega
  | hand msgid msg msgflg r rs hp hsend =>
    obtain ⟨-, front, back, heq, rfl⟩ := pipelineSend_some hsend
    refine ⟨h.sum, h.room, h.full, fun x hx => h.unmatched x ?_⟩
    rw [heq]
    rcases List.mem_append.mp hx with hx | hx <;> simp [hx]
  | enqueue msgid msg msgflg hp hroom hsend =>
    have hsum := h.sum
    refine ⟨?_, ?_, fun hne => ?_, fun r hr m hm => ?_⟩
    · simp only [List.length_append, List.length_singleton]
      omega
    · dsimp only
      omega
    · -- nobody waits to send while there is room
      have hfull := h.full hne
      dsimp only at hroom ⊢
      omega
    · rcases List.mem_append.mp hm with hm | hm
      · exact h.unmatched r hr m hm
      · rw [List.mem_singleton.mp hm]
        exact pipelineSend_none hsend r hr
  | take msgid msgsz mtype msgflg msg hp hget hsearch hsize =>
    obtain ⟨-, -, hmem⟩ := mem_of_search hsearch
    have hpos := List.length_pos_of_mem hmem
    have hsum := h.sum
    have hroom := h.room
    refine ⟨?_, ?_, fun hne => absurd rfl hne, fun r hr m hm =>
      h.unmatched r hr m (List.mem_of_mem_erase hm)⟩
    · simp only [List.length_erase_of_mem hmem]
      omega
    · dsimp only
      omega
  | recvSleep msgid msgsz mtype msgflg hp hsearch =>
    refine ⟨h.sum, h.room, h.full, fun r hr m hm => ?_⟩
    rcases List.mem_append.mp hr with hr | hr
    · exact h.unmatched r hr m hm
    · rw [List.mem_singleton.mp hr]
      exact testmsg_of_search_none hsearch m hm
  | _ => exact h

/-- The processes on the lists are those that sleep in the functions. -/
structure Lists (s : IpcState) (q : MsgQueue) : Prop where
  receivers : ∀ r ∈ q.q_receiver, s.pc r.proc = .recvAsleep r.size ∧ s.rMsg r.proc = .unset
  nodup : (q.q_receiver.map MsgReceiver.proc).Nodup
  recvAsleep : ∀ p msgsz, s.pc p = .recvAsleep msgsz → ∃ mtype, ⟨p, mtype, msgsz⟩ ∈ q.q_receiver
  senders : ∀ p, p ∈ q.q_sender ↔ ∃ msgid msg msgflg, s.pc p = .sendAsleep msgid msg msgflg

/-- A section of a process that is awake and stays so. -/
theorem lists_awake (h : Lists s q) {c : IpcPc} (hp : (s.pc p).asleep = false)
    (hc : c.asleep = false) (hpc : s'.pc = Function.update s.pc p c) (hr : s'.rMsg = s.rMsg)
    (hrec : q'.q_receiver = q.q_receiver) (hsend : q'.q_sender = q.q_sender) : Lists s' q' := by
  refine ⟨fun r hmem => ?_, ?_, fun x msgsz hx => ?_, fun x => ?_⟩
  · rw [hrec] at hmem
    obtain ⟨hsleep, hunset⟩ := h.receivers r hmem
    have hne : r.proc ≠ p := by
      rintro rfl
      rw [hsleep] at hp
      cases hp
    rw [hpc, hr, Function.update_of_ne hne]
    exact ⟨hsleep, hunset⟩
  · rw [hrec]
    exact h.nodup
  · have hne : x ≠ p := by
      rintro rfl
      rw [hpc, Function.update_self] at hx
      rw [hx] at hc
      cases hc
    rw [hpc, Function.update_of_ne hne] at hx
    rw [hrec]
    exact h.recvAsleep x msgsz hx
  · rw [hsend, h.senders, hpc]
    by_cases hne : x = p
    · subst hne
      rw [Function.update_self]
      refine iff_of_false ?_ ?_
      · rintro ⟨_, _, _, heq⟩
        rw [heq] at hp
        cases hp
      · rintro ⟨_, _, _, heq⟩
        rw [heq] at hc
        cases hc
    · rw [Function.update_of_ne hne]

theorem lists_sendSleep (h : Lists s q) {msgid : ℤ} {msg : MsgMsg} {msgflg : BitVec 32}
    (hp : s.pc p = .sending msgid msg msgflg)
    (hpc : s'.pc = Function.update s.pc p (.sendAsleep msgid msg msgflg)) (hr : s'.rMsg = s.rMsg) :
    Lists s' { q with q_sender := q.q_sender ++ [p] } := by
  have hne : ∀ r ∈ q.q_receiver, r.proc ≠ p := by
    rintro r hmem rfl
    have hsleep := (h.receivers r hmem).1
    rw [hp] at hsleep
    cases hsleep
  refine ⟨fun r hmem => ?_, h.nodup, fun x msgsz hx => ?_, fun x => ?_⟩
  · rw [hpc, hr, Function.update_of_ne (hne r hmem)]
    exact h.receivers r hmem
  · have hxp : x ≠ p := by
      rintro rfl
      simp [hpc] at hx
    rw [hpc, Function.update_of_ne hxp] at hx
    exact h.recvAsleep x msgsz hx
  · rw [List.mem_append, List.mem_singleton, h.senders, hpc]
    by_cases hxp : x = p
    · subst hxp
      rw [Function.update_self]
      exact iff_of_true (.inr rfl) ⟨msgid, msg, msgflg, rfl⟩
    · rw [Function.update_of_ne hxp]
      simp [hxp]

theorem lists_recvSleep (h : Lists s q) {msgid msgsz mtype : ℤ} {msgflg : BitVec 32}
    (hp : s.pc p = .receiving msgid msgsz mtype msgflg)
    (hpc : s'.pc = Function.update s.pc p (.recvAsleep msgsz))
    (hr : s'.rMsg = Function.update s.rMsg p .unset) :
    Lists s' { q with q_receiver := q.q_receiver ++ [⟨p, mtype, msgsz⟩] } := by
  have hne : ∀ r ∈ q.q_receiver, r.proc ≠ p := by
    rintro r hmem rfl
    have hsleep := (h.receivers r hmem).1
    rw [hp] at hsleep
    cases hsleep
  refine ⟨fun r hmem => ?_, ?_, fun x size hx => ?_, fun x => ?_⟩
  · rcases List.mem_append.mp hmem with hmem | hmem
    · rw [hpc, hr, Function.update_of_ne (hne r hmem), Function.update_of_ne (hne r hmem)]
      exact h.receivers r hmem
    · rw [List.mem_singleton.mp hmem, hpc, hr, Function.update_self, Function.update_self]
      exact ⟨rfl, rfl⟩
  · simp only [List.map_append, List.map_singleton]
    refine List.nodup_append.mpr ⟨h.nodup, List.nodup_singleton _, fun a ha b hb => ?_⟩
    obtain ⟨r, hmem, rfl⟩ := List.mem_map.mp ha
    rw [List.mem_singleton.mp hb]
    exact hne r hmem
  · by_cases hxp : x = p
    · subst hxp
      rw [hpc, Function.update_self] at hx
      cases hx
      exact ⟨mtype, by simp⟩
    · rw [hpc, Function.update_of_ne hxp] at hx
      obtain ⟨t, ht⟩ := h.recvAsleep x size hx
      exact ⟨t, List.mem_append_left _ ht⟩
  · rw [h.senders, hpc]
    by_cases hxp : x = p
    · subst hxp
      rw [Function.update_self, hp]
      simp
    · rw [Function.update_of_ne hxp]

/-- The receiver leaves the list, and runs. -/
theorem lists_hand (h : Lists s q) {msgid : ℤ} {msg : MsgMsg} {msgflg : BitVec 32}
    {r : MsgReceiver} {front back : List MsgReceiver}
    (hp : s.pc p = .sending msgid msg msgflg) (hrs : q.q_receiver = front ++ r :: back)
    (hpc : s'.pc = Function.update (activate s.pc r.proc) p (.out 0))
    (hr : s'.rMsg = Function.update s.rMsg r.proc (.msg msg)) :
    Lists s' { q with q_receiver := front ++ back } := by
  have hr0 : r ∈ q.q_receiver := by simp [hrs]
  have hsleep := (h.receivers r hr0).1
  have hnodup := h.nodup
  rw [hrs, List.map_append, List.map_cons, List.nodup_middle, List.nodup_cons, ← List.map_append]
    at hnodup
  -- the others on the list are neither `p` nor `r.proc`
  have hne : ∀ x ∈ front ++ back, x.proc ≠ r.proc ∧ x.proc ≠ p := by
    intro x hx
    refine ⟨fun heq => hnodup.1 (heq ▸ List.mem_map_of_mem hx), ?_⟩
    rintro rfl
    have hx0 : x ∈ q.q_receiver := by
      rw [hrs]
      rcases List.mem_append.mp hx with hx | hx <;> simp [hx]
    have hx1 := (h.receivers x hx0).1
    rw [hp] at hx1
    cases hx1
  have hrun : (activate s.pc r.proc) r.proc = .recvWoken r.size := by
    rw [activate, Function.update_self, hsleep]
    rfl
  refine ⟨fun x hx => ?_, hnodup.2, fun x size hx => ?_, fun x => ?_⟩
  · obtain ⟨hxr, hxp⟩ := hne x hx
    rw [hpc, hr, Function.update_of_ne hxp, Function.update_of_ne hxr, activate_of_ne hxr]
    refine h.receivers x ?_
    rw [hrs]
    rcases List.mem_append.mp hx with hx | hx <;> simp [hx]
  · have hxp : x ≠ p := by
      rintro rfl
      simp [hpc] at hx
    rw [hpc, Function.update_of_ne hxp] at hx
    have hxr : x ≠ r.proc := by
      rintro rfl
      rw [hrun] at hx
      cases hx
    rw [activate_of_ne hxr] at hx
    obtain ⟨t, ht⟩ := h.recvAsleep x size hx
    refine ⟨t, ?_⟩
    rw [hrs] at ht
    simp only [List.mem_append, List.mem_cons] at ht ⊢
    refine ht.imp id fun ht => ht.resolve_left fun heq => hxr ?_
    rw [← heq]
  · rw [h.senders, hpc]
    by_cases hxp : x = p
    · subst hxp
      rw [Function.update_self, hp]
      simp
    · rw [Function.update_of_ne hxp]
      by_cases hxr : x = r.proc
      · subst hxr
        rw [hrun, hsleep]
        simp
      · rw [activate_of_ne hxr]

/-- All senders leave the list, and try again. -/
theorem lists_take (h : Lists s q) {msgid msgsz mtype : ℤ} {msgflg : BitVec 32} {c : IpcPc}
    (hp : s.pc p = .receiving msgid msgsz mtype msgflg) (hc : c.asleep = false)
    (hpc : s'.pc = Function.update (ssWakeup s.pc q.q_sender) p c) (hr : s'.rMsg = s.rMsg)
    (hrec : q'.q_receiver = q.q_receiver) (hsend : q'.q_sender = []) : Lists s' q' := by
  have hnot : ∀ r ∈ q.q_receiver, r.proc ∉ q.q_sender := by
    intro r hmem hs
    obtain ⟨_, _, _, heq⟩ := (h.senders r.proc).mp hs
    rw [(h.receivers r hmem).1] at heq
    cases heq
  refine ⟨fun r hmem => ?_, ?_, fun x size hx => ?_, fun x => ?_⟩
  · rw [hrec] at hmem
    have hne : r.proc ≠ p := by
      rintro rfl
      have hsleep := (h.receivers r hmem).1
      rw [hp] at hsleep
      cases hsleep
    rw [hpc, hr, Function.update_of_ne hne, ssWakeup_apply, if_neg (hnot r hmem)]
    exact h.receivers r hmem
  · rw [hrec]
    exact h.nodup
  · have hxp : x ≠ p := by
      rintro rfl
      rw [hpc, Function.update_self] at hx
      rw [hx] at hc
      cases hc
    rw [hpc, Function.update_of_ne hxp, ssWakeup_apply] at hx
    split at hx
    · rename_i hmem
      obtain ⟨_, _, _, heq⟩ := (h.senders x).mp hmem
      rw [heq] at hx
      cases hx
    · rw [hrec]
      exact h.recvAsleep x size hx
  · rw [hsend, hpc]
    refine iff_of_false List.not_mem_nil ?_
    rintro ⟨msgid, msg, msgflg, hx⟩
    by_cases hxp : x = p
    · subst hxp
      rw [Function.update_self] at hx
      rw [hx] at hc
      cases hc
    · rw [Function.update_of_ne hxp, ssWakeup_apply] at hx
      split at hx
      · rename_i hmem
        obtain ⟨_, _, _, heq⟩ := (h.senders x).mp hmem
        rw [heq] at hx
        cases hx
      · rename_i hmem
        exact hmem ((h.senders x).mpr ⟨_, _, _, hx⟩)

theorem lists_of_change (h : Lists s q) (hc : Change s id q p q' s') : Lists s' q' := by
  cases hc with
  | quiet c buf hp hc => exact lists_awake h hp.2.2 (hc .unset).2.2 rfl rfl rfl rfl
  | load msgid msgp len msgflg hp => exact lists_awake h hp.2.2 rfl rfl rfl rfl rfl
  | drop msgid msg msgflg err hp => exact lists_awake h (by rw [hp]; rfl) rfl rfl rfl rfl rfl
  | sendSleep msgid msg msgflg hp => exact lists_sendSleep h hp rfl rfl
  | hand msgid msg msgflg r rs hp hsend =>
    obtain ⟨-, front, back, hrs, rfl⟩ := pipelineSend_some hsend
    exact lists_hand h hp hrs rfl rfl
  | enqueue msgid msg msgflg hp => exact lists_awake h (by rw [hp]; rfl) rfl rfl rfl rfl rfl
  | take msgid msgsz mtype msgflg msg hp => exact lists_take h hp rfl rfl rfl rfl rfl
  | recvSleep msgid msgsz mtype msgflg hp => exact lists_recvSleep h hp rfl rfl
  | pickup msg msgsz hp => exact lists_awake h (by rw [hp]; rfl) rfl rfl rfl rfl rfl
  | store msg msgsz hp => exact lists_awake h (by rw [hp]; rfl) rfl rfl rfl rfl rfl

/-! ### Where the messages are -/

/-- The message that a process is about to send. -/
def sends (s : IpcState) (p : ℕ) : Option MsgMsg := (s.pc p).sends

/-- The message that a process has been given. -/
def given (s : IpcState) (p : ℕ) : Option MsgMsg := (s.pc p).given (s.rMsg p)

/-- The places account for all messages and for their pages. -/
structure Keeps (place : MsgMsg → Place) (s : IpcState) (q : MsgQueue) : Prop where
  custody : Custody place s.sends s.given q.q_message s.returned s.sent
  leases : Leases place MsgMsg.pages s.nextPage s.freed

/-- The messages of the processes after a section of `p`. -/
theorem sends_eq {c : IpcPc} (hpc : s'.pc = Function.update s.pc p c) :
    s'.sends = Function.update s.sends p c.sends := by
  funext x
  by_cases hx : x = p
  · subst hx
    simp [sends, hpc]
  · simp [sends, hpc, Function.update_of_ne hx]

theorem given_eq {c : IpcPc} (hpc : s'.pc = Function.update s.pc p c)
    (hr : ∀ x, x ≠ p → s'.rMsg x = s.rMsg x) :
    s'.given = Function.update s.given p (c.given (s'.rMsg p)) := by
  funext x
  by_cases hx : x = p
  · subst hx
    simp [given, hpc]
  · simp [given, hpc, Function.update_of_ne hx, hr x hx]

theorem sends_same {c : IpcPc} (hpc : s'.pc = Function.update s.pc p c)
    (hc : c.sends = (s.pc p).sends) : s'.sends = s.sends := by
  rw [sends_eq hpc, hc]
  exact Function.update_eq_self p s.sends

theorem given_same {c : IpcPc} (hpc : s'.pc = Function.update s.pc p c)
    (hr : ∀ x, x ≠ p → s'.rMsg x = s.rMsg x)
    (hc : c.given (s'.rMsg p) = (s.pc p).given (s.rMsg p)) : s'.given = s.given := by
  rw [given_eq hpc hr, hc]
  exact Function.update_eq_self p s.given

/-- Waking the senders moves no message. -/
theorem views_ssWakeup (h : Lists s q) (x : ℕ) :
    (ssWakeup s.pc q.q_sender x).sends = (s.pc x).sends ∧
      (ssWakeup s.pc q.q_sender x).given (s.rMsg x) = (s.pc x).given (s.rMsg x) := by
  rw [ssWakeup_apply]
  split
  · rename_i hmem
    obtain ⟨_, _, _, heq⟩ := (h.senders x).mp hmem
    rw [heq]
    exact ⟨rfl, rfl⟩
  · exact ⟨rfl, rfl⟩

variable {place : MsgMsg → Place} {msg : MsgMsg} {msgid : ℤ} {msgflg : BitVec 32}

/-- A section that moves no message. -/
theorem keeps_still (h : Keeps place s q) {c : IpcPc} (hpc : s'.pc = Function.update s.pc p c)
    (hr : ∀ x, x ≠ p → s'.rMsg x = s.rMsg x) (hsends : c.sends = (s.pc p).sends)
    (hgiven : c.given (s'.rMsg p) = (s.pc p).given (s.rMsg p)) (hsent : s'.sent = s.sent)
    (hret : s'.returned = s.returned) (hnext : s'.nextPage = s.nextPage)
    (hfreed : s'.freed = s.freed) (hmsg : q'.q_message = q.q_message) :
    ∃ place', Keeps place' s' q' := by
  refine ⟨place, ?_, ?_⟩
  · rw [sends_same hpc hsends, given_same hpc hr hgiven, hmsg, hret, hsent]
    exact h.custody
  · rw [hnext, hfreed]
    exact h.leases

theorem keeps_load (h : Keeps place s q) {msgp : Msgbuf} {len : ℕ}
    (hp : (s.pc p).Calm (s.rMsg p)) {s' : IpcState} (hpc : s'.pc
      = Function.update s.pc p (.sending msgid (loadMsg msgp len s.nextPage) msgflg))
    (hr : s'.rMsg = s.rMsg) (hsent : s'.sent = s.sent) (hret : s'.returned = s.returned)
    (hnext : s'.nextPage = s.nextPage + (loadMsg msgp len s.nextPage).pages.length)
    (hfreed : s'.freed = s.freed) : ∃ place', Keeps place' s' q := by
  -- its pages are new, so the message is
  have hnew : place (loadMsg msgp len s.nextPage) = .nowhere := by
    by_contra hne
    have hmem : s.nextPage ∈ (loadMsg msgp len s.nextPage).pages := by simp [MsgMsg.pages, loadMsg]
    exact absurd (h.leases.lt _ hne _ hmem) (Nat.lt_irrefl _)
  refine ⟨Function.update place (loadMsg msgp len s.nextPage) (.sender p), ?_, ?_⟩
  · rw [sends_eq hpc, given_same hpc (fun x _ => congrFun hr x) hp.2.1.symm, hret, hsent]
    exact h.custody.load hnew
  · rw [hnext, hfreed]
    exact h.leases.load hnew (fun n => mem_pages_loadMsg) nodup_pages_loadMsg

theorem keeps_drop (h : Keeps place s q) (hp : s.pc p = .sending msgid msg msgflg) {err : ℤ}
    {s' : IpcState} (hpc : s'.pc = Function.update s.pc p (.out err)) (hr : s'.rMsg = s.rMsg)
    (hsent : s'.sent = s.sent) (hret : s'.returned = s.returned)
    (hnext : s'.nextPage = s.nextPage) (hfreed : s'.freed = s.freed ++ msg.pages) :
    ∃ place', Keeps place' s' q := by
  have hsend : s.sends p = some msg := by simp [sends, hp, IpcPc.sends]
  have hplace := h.custody.mem_sends p msg hsend
  refine ⟨Function.update place msg .dropped, ?_, ?_⟩
  · rw [sends_eq hpc, given_same hpc (fun x _ => congrFun hr x) (by rw [hp]; rfl), hret, hsent]
    exact h.custody.drop hsend
  · rw [hnext, hfreed]
    exact h.leases.free (by simp [hplace]) (by rw [hplace]; rfl) rfl

theorem keeps_hand (hl : Lists s q) (h : Keeps place s q) {r : MsgReceiver}
    {front back : List MsgReceiver} (hp : s.pc p = .sending msgid msg msgflg)
    (hrs : q.q_receiver = front ++ r :: back) {s' : IpcState}
    (hpc : s'.pc = Function.update (activate s.pc r.proc) p (.out 0))
    (hr : s'.rMsg = Function.update s.rMsg r.proc (.msg msg))
    (hsent : s'.sent = s.sent ++ [msg]) (hret : s'.returned = s.returned)
    (hnext : s'.nextPage = s.nextPage) (hfreed : s'.freed = s.freed)
    (hmsg : q'.q_message = q.q_message) : ∃ place', Keeps place' s' q' := by
  have hsleep := (hl.receivers r (by simp [hrs])).1
  have hne : r.proc ≠ p := by
    intro heq
    rw [heq, hp] at hsleep
    cases hsleep
  have hsend : s.sends p = some msg := by simp [sends, hp, IpcPc.sends]
  have hplace := h.custody.mem_sends p msg hsend
  have hsends : s'.sends = Function.update s.sends p none := by
    funext x
    by_cases hx : x = p
    · subst hx
      simp [sends, hpc, IpcPc.sends]
    · by_cases hxr : x = r.proc
      · subst hxr
        simp [sends, hpc, Function.update_of_ne hx, activate, hsleep, IpcPc.activated, IpcPc.sends]
      · simp [sends, hpc, Function.update_of_ne hx, activate_of_ne hxr]
  have hgiven : s'.given = Function.update s.given r.proc (some msg) := by
    funext x
    by_cases hx : x = p
    · subst hx
      rw [Function.update_of_ne (Ne.symm hne)]
      simp [given, hpc, hp, IpcPc.given]
    · by_cases hxr : x = r.proc
      · subst hxr
        simp [given, hpc, hr, Function.update_of_ne hx, activate, hsleep, IpcPc.activated,
          IpcPc.given]
      · simp [given, hpc, hr, Function.update_of_ne hx, activate_of_ne hxr,
          Function.update_of_ne hxr]
  refine ⟨Function.update place msg (.receiver r.proc), ?_, ?_⟩
  · rw [hsends, hgiven, hmsg, hret, hsent]
    exact h.custody.hand hsend (by simp [given, hsleep, IpcPc.given])
  · rw [hnext, hfreed]
    exact h.leases.move (by simp [hplace]) (by rw [hplace]; rfl)

theorem keeps_enqueue (h : Keeps place s q) (hp : s.pc p = .sending msgid msg msgflg)
    {s' : IpcState} (hpc : s'.pc = Function.update s.pc p (.out 0)) (hr : s'.rMsg = s.rMsg)
    (hsent : s'.sent = s.sent ++ [msg]) (hret : s'.returned = s.returned)
    (hnext : s'.nextPage = s.nextPage) (hfreed : s'.freed = s.freed)
    (hmsg : q'.q_message = q.q_message ++ [msg]) : ∃ place', Keeps place' s' q' := by
  have hsend : s.sends p = some msg := by simp [sends, hp, IpcPc.sends]
  have hplace := h.custody.mem_sends p msg hsend
  refine ⟨Function.update place msg .queued, ?_, ?_⟩
  · rw [sends_eq hpc, given_same hpc (fun x _ => congrFun hr x) (by rw [hp]; rfl), hmsg, hret, hsent]
    exact h.custody.enqueue hsend
  · rw [hnext, hfreed]
    exact h.leases.move (by simp [hplace]) (by rw [hplace]; rfl)

theorem keeps_take (hl : Lists s q) (h : Keeps place s q) {msgsz mtype size : ℤ}
    (hp : s.pc p = .receiving msgid msgsz mtype msgflg) (hmem : msg ∈ q.q_message)
    {s' : IpcState} (hpc : s'.pc = Function.update (ssWakeup s.pc q.q_sender) p (.storing msg size))
    (hr : s'.rMsg = s.rMsg) (hsent : s'.sent = s.sent) (hret : s'.returned = s.returned)
    (hnext : s'.nextPage = s.nextPage) (hfreed : s'.freed = s.freed)
    (hmsg : q'.q_message = q.q_message.erase msg) : ∃ place', Keeps place' s' q' := by
  have hplace := (h.custody.mem_queue msg).mp hmem
  have hsends : s'.sends = s.sends := by
    funext x
    by_cases hx : x = p
    · subst hx
      simp [sends, hpc, hp, IpcPc.sends]
    · simp [sends, hpc, Function.update_of_ne hx, (views_ssWakeup hl x).1]
  have hgiven : s'.given = Function.update s.given p (some msg) := by
    funext x
    by_cases hx : x = p
    · subst hx
      simp [given, hpc, IpcPc.given]
    · simp [given, hpc, hr, Function.update_of_ne hx, (views_ssWakeup hl x).2]
  refine ⟨Function.update place msg (.receiver p), ?_, ?_⟩
  · rw [hsends, hgiven, hmsg, hret, hsent]
    exact h.custody.take hmem (by simp [given, hp, IpcPc.given])
  · rw [hnext, hfreed]
    exact h.leases.move (by simp [hplace]) (by rw [hplace]; rfl)

theorem keeps_store (h : Keeps place s q) {msgsz : ℤ} (hp : s.pc p = .storing msg msgsz)
    {s' : IpcState} (hpc : s'.pc = Function.update s.pc p (.out msgsz)) (hr : s'.rMsg = s.rMsg)
    (hsent : s'.sent = s.sent) (hret : s'.returned = s.returned ++ [msg])
    (hnext : s'.nextPage = s.nextPage) (hfreed : s'.freed = s.freed ++ msg.pages) :
    ∃ place', Keeps place' s' q := by
  have hgive : s.given p = some msg := by simp [given, hp, IpcPc.given]
  have hplace := (h.custody.mem_given p msg).mp hgive
  refine ⟨Function.update place msg .returned, ?_, ?_⟩
  · rw [sends_same hpc (by rw [hp]; rfl), given_eq hpc (fun x _ => congrFun hr x), hret, hsent]
    exact h.custody.store hgive
  · rw [hnext, hfreed]
    exact h.leases.free (by simp [hplace]) (by rw [hplace]; rfl) rfl

/-- Every section keeps account of the messages. -/
theorem keeps_of_change (hl : Lists s q) (h : Keeps place s q) (hc : Change s id q p q' s') :
    ∃ place', Keeps place' s' q' := by
  cases hc with
  | quiet c buf hp hc =>
    exact keeps_still h rfl (fun _ _ => rfl) ((hc .unset).1.trans hp.1.symm)
      ((hc _).2.1.trans hp.2.1.symm) rfl rfl rfl rfl rfl
  | load msgid msgp len msgflg hp => exact keeps_load h hp rfl rfl rfl rfl rfl rfl
  | drop msgid msg msgflg err hp => exact keeps_drop h hp rfl rfl rfl rfl rfl rfl
  | sendSleep msgid msg msgflg hp =>
    exact keeps_still h rfl (fun _ _ => rfl) (by rw [hp]; rfl) (by rw [hp]; rfl) rfl rfl rfl rfl rfl
  | hand msgid msg msgflg r rs hp hsend =>
    obtain ⟨-, front, back, hrs, rfl⟩ := pipelineSend_some hsend
    exact keeps_hand hl h hp hrs rfl rfl rfl rfl rfl rfl rfl
  | enqueue msgid msg msgflg hp => exact keeps_enqueue h hp rfl rfl rfl rfl rfl rfl rfl
  | take msgid msgsz mtype msgflg msg hp hget hsearch =>
    obtain ⟨-, -, hmem⟩ := mem_of_search hsearch
    exact keeps_take hl h hp hmem rfl rfl rfl rfl rfl rfl rfl
  | recvSleep msgid msgsz mtype msgflg hp =>
    exact keeps_still h rfl (fun x hx => Function.update_of_ne hx _ _) (by rw [hp]; rfl)
      (by rw [hp]; rfl) rfl rfl rfl rfl rfl
  | pickup msg msgsz hp hr =>
    exact keeps_still h rfl (fun _ _ => rfl) (by rw [hp]; rfl) (by rw [hp, hr]; rfl) rfl rfl rfl rfl
      rfl
  | store msg msgsz hp => exact keeps_store h hp rfl rfl rfl rfl rfl rfl

/-! ### In which order messages are received -/

/-- A `sys_msgrcv` that takes a message takes the first one of its type. -/
def InOrder (s : IpcState) : IpcStep → Prop
  | .run p =>
    match s.pc p with
    | .receiving msgid msgsz mtype _ =>
      match s.ids.getMsgq msgid with
      | .found _ q => ¬ Overtakes mtype msgsz q.q_message
      | _ => True
    | _ => True
  | _ => True

instance (s : IpcState) (l : IpcStep) : Decidable (s.InOrder l) := by
  unfold InOrder
  split
  · split
    · split <;> infer_instance
    · infer_instance
  · infer_instance

/-- The messages of each type have been received in the order in which they were sent,
and the others wait in that order. -/
def Ordered (s : IpcState) (q : MsgQueue) : Prop :=
  ∀ t, s.received.filter (·.mtype = t) ++ q.q_message.filter (·.mtype = t)
    = s.sent.filter (·.mtype = t)

theorem ordered_hand (h : Ordered s q) (hf : Fits q) {r : MsgReceiver} (hr : r ∈ q.q_receiver)
    (htest : testmsg r.mtype msg.mtype = true) (t : ℤ) :
    (s.received ++ [msg]).filter (·.mtype = t) ++ q.q_message.filter (·.mtype = t)
      = (s.sent ++ [msg]).filter (·.mtype = t) := by
  rw [List.filter_append, List.filter_append, ← h t]
  by_cases htype : msg.mtype = t
  · -- no message of this type is queued, since the receiver would have taken it
    have hnil : q.q_message.filter (·.mtype = t) = [] := by
      refine List.filter_eq_nil_iff.mpr fun m hm => ?_
      rw [decide_eq_true_eq]
      intro heq
      have hno := hf.unmatched r hr m hm
      rw [heq, ← htype, htest] at hno
      cases hno
    rw [hnil, List.append_nil, List.append_nil]
  · simp [htype]

/-- The queue before the message that a search takes. -/
theorem split_of_search {mtype : ℤ} {msgs : List MsgMsg} (hnodup : msgs.Nodup)
    (hsearch : searchMsg mtype none msgs = some msg) : ∃ front back,
      msgs = front ++ msg :: back ∧ msgs.erase msg = front ++ back ∧
      (∀ m ∈ front, m.mtype = msg.mtype → m ∈ (matchedMsgs mtype msgs).dropLast) ∧
      (∀ m ∈ (matchedMsgs mtype msgs).dropLast, m ∈ front) ∧
      (matchedMsgs mtype msgs).getLast? = some msg := by
  obtain ⟨pre, hpre, -⟩ := mem_of_search hsearch
  obtain ⟨front, back, rfl, htype, hfront⟩ := split_of_matched hpre
  have hnot : msg ∉ front := by
    intro hmem
    have hcount := hnodup
    rw [List.nodup_middle, List.nodup_cons] at hcount
    exact hcount.1 (List.mem_append_left _ hmem)
  refine ⟨front, back, rfl, ?_, ?_, ?_, ?_⟩
  · rw [List.erase_append_right _ hnot, List.erase_cons_head]
  · rwa [hpre, List.dropLast_concat]
  · rwa [hpre, List.dropLast_concat]
  · rw [hpre, List.getLast?_concat]

theorem ordered_take (h : Ordered s q) (hnodup : q.q_message.Nodup) {mtype msgsz : ℤ}
    (hsearch : searchMsg mtype none q.q_message = some msg) (hsize : msg.size ≤ msgsz)
    (hover : ¬ Overtakes mtype msgsz q.q_message) (t : ℤ) :
    (s.received ++ [msg]).filter (·.mtype = t) ++ (q.q_message.erase msg).filter (·.mtype = t)
      = s.sent.filter (·.mtype = t) := by
  obtain ⟨front, back, hsplit, herase, htype, -, hlast⟩ := split_of_search hnodup hsearch
  rw [herase, ← h t, hsplit]
  simp only [List.filter_append, List.append_assoc]
  by_cases heq : msg.mtype = t
  · have hnil : front.filter (·.mtype = t) = [] := by
      refine List.filter_eq_nil_iff.mpr fun m hm => ?_
      rw [decide_eq_true_eq]
      intro hmt
      have hmtype : m.mtype = msg.mtype := hmt.trans heq.symm
      exact hover ⟨msg, hlast, hsize, m, htype m hm hmtype, hmtype⟩
    simp [hnil, heq]
  · simp [heq]

/-- Taking a later message of a type breaks the order. -/
theorem not_prefix_of_overtakes (h : Ordered s q) (hnodup : q.q_message.Nodup) {mtype msgsz : ℤ}
    (hsearch : searchMsg mtype none q.q_message = some msg)
    (hover : Overtakes mtype msgsz q.q_message) :
    ¬ (s.received ++ [msg]).filter (·.mtype = msg.mtype) <+:
      s.sent.filter (·.mtype = msg.mtype) := by
  obtain ⟨front, back, hsplit, -, -, hfront, hlast⟩ := split_of_search hnodup hsearch
  obtain ⟨msg', hmsg', -, m, hm, htype⟩ := hover
  obtain rfl : msg' = msg := Option.some_inj.mp (hmsg'.symm.trans hlast)
  rw [← h msg'.mtype, List.filter_append, List.prefix_append_right_inj, hsplit,
    List.filter_append]
  have hmem : m ∈ front.filter (·.mtype = msg'.mtype) :=
    List.mem_filter.mpr ⟨hfront m hm, by simpa using htype⟩
  obtain ⟨x, xs, hx⟩ := List.exists_cons_of_ne_nil (List.ne_nil_of_mem hmem)
  rw [hx]
  intro hpre
  -- the first one waiting would be the message itself
  have hxm : msg' = x := by
    obtain ⟨rest, hrest⟩ := hpre
    simp only [decide_true, List.filter_cons_of_pos, List.filter_nil, List.cons_append,
      List.nil_append, List.cons.injEq] at hrest
    exact hrest.1
  have hxf : x ∈ front := (List.mem_filter.mp (hx ▸ List.mem_cons_self)).1
  rw [hsplit, List.nodup_middle, List.nodup_cons] at hnodup
  exact hnodup.1 (List.mem_append_left _ (hxm ▸ hxf))

theorem ordered_of_change (h : Ordered s q) (hf : Fits q) (hnodup : q.q_message.Nodup)
    (hc : Change s id q p q' s') (hin : s.InOrder (.run p)) : Ordered s' q' := by
  cases hc with
  | hand msgid msg msgflg r rs hp hsend =>
    obtain ⟨htest, front, back, hrs, -⟩ := pipelineSend_some hsend
    exact ordered_hand (q := q) h hf (by simp [hrs]) htest
  | enqueue msgid msg msgflg hp =>
    intro t
    simp only [ret, setQueue, List.filter_append, ← List.append_assoc]
    rw [h t]
  | take msgid msgsz mtype msgflg msg hp hget hsearch hsize =>
    simp only [InOrder, hp, hget] at hin
    exact ordered_take h hnodup hsearch hsize hin
  | _ => exact h

/-! ### Runs -/

/-- What holds between the sections. -/
structure Inv (s : IpcState) (id : ℕ) (q : MsgQueue) : Prop where
  table : s.Table id q
  fits : Fits q
  lists : Lists s q
  keeps : ∃ place, Keeps place s q
  ordered : Ordered s q

theorem inv_init (h : ipcSystem.init s) : ∃ id q, s.Inv id q := by
  obtain ⟨⟨id, seq, hlt, hids⟩, hidle, hfreed, hsent, hreceived, hreturned⟩ := h
  have hout : ∀ p, (s.pc p).sends = none ∧ (s.pc p).given (s.rMsg p) = none ∧
      (s.pc p).asleep = false := fun p => calm_of_idle (hidle p)
  refine ⟨id, .new seq, ⟨hlt, hids⟩, ⟨rfl, ?_, by simp [MsgQueue.new], by simp [MsgQueue.new]⟩,
    ⟨by simp [MsgQueue.new], by simp [MsgQueue.new], fun p msgsz hp => ?_, fun p => ?_⟩,
    ⟨fun _ => .nowhere, ⟨fun p m hm => ?_, fun p m => ?_, ?_, ?_, ?_, ?_⟩, ?_⟩, fun t => ?_⟩
  · show (0 : ℤ) ≤ 256
    decide
  · have hasleep := (hout p).2.2
    rw [hp] at hasleep
    cases hasleep
  · refine iff_of_false List.not_mem_nil ?_
    rintro ⟨_, _, _, heq⟩
    have hasleep := (hout p).2.2
    rw [heq] at hasleep
    cases hasleep
  · rw [sends, (hout p).1] at hm
    cases hm
  · rw [given, (hout p).2.1]
    simp
  · simp [MsgQueue.new]
  · simp [hreturned]
  · simp [hsent, Place.sent]
  · simp [MsgQueue.new, hreturned, hsent]
  · exact ⟨fun m hm => absurd rfl hm, fun m _ hm => absurd rfl hm, fun m hm => absurd rfl hm,
      fun m hm => absurd rfl hm, by simp [hfreed]⟩
  · simp [hreceived, hsent, MsgQueue.new]

/-- Every step in order keeps the invariant. -/
theorem inv_step {l : IpcStep} (h : s.Inv id q) (hin : s.InOrder l) (hs : s.step l = some s') :
    ∃ q', s'.Inv id q' := by
  obtain ⟨q', hc⟩ := change_of_step h.table hs
  obtain ⟨place, hkeeps⟩ := h.keeps
  have hin' : s.InOrder (.run l.proc) := by
    cases l with
    | run p => exact hin
    | msgsnd p =>
      simp only [step] at hs
      split at hs
      · rename_i hidle
        obtain ⟨r, hr⟩ := hidle
        simp [InOrder, IpcStep.proc, hr]
      · cases hs
    | msgrcv p =>
      simp only [step] at hs
      split at hs
      · rename_i hidle
        obtain ⟨r, hr⟩ := hidle
        simp [InOrder, IpcStep.proc, hr]
      · cases hs
  exact ⟨q', table_of_change h.table hc, fits_of_change h.fits hc, lists_of_change h.lists hc,
    keeps_of_change h.lists hkeeps hc,
    ordered_of_change h.ordered h.fits hkeeps.custody.nodup.1 hc hin'⟩

theorem inv_of_reachable (h : ipcSystem.Reachable InOrder s) : ∃ id q, s.Inv id q := by
  refine h.induction (I := fun s => ∃ id q, s.Inv id q) (fun s => inv_init) ?_
  rintro s l s' ⟨id, q, hi⟩ hin hs
  obtain ⟨q', hq'⟩ := inv_step hi hin hs
  exact ⟨id, q', hq'⟩

/-- A message is queued, has been given to a process, or has been returned. -/
inductive At (s : IpcState) (q : MsgQueue) (m : MsgMsg) : Place → Prop
  | queued (h : m ∈ q.q_message) : At s q m .queued
  | receiver (p : ℕ) (h : s.given p = some m) : At s q m (.receiver p)
  | returned (h : m ∈ s.returned) : At s q m .returned

theorem Keeps.at_iff {place : MsgMsg → Place} (h : Keeps place s q) {m : MsgMsg}
    (hm : m ∈ s.sent) {x : Place} : At s q m x ↔ place m = x := by
  have hsent := (h.custody.mem_sent m).mp hm
  constructor
  · rintro (hq | ⟨p, hp⟩ | hr)
    · exact (h.custody.mem_queue m).mp hq
    · exact (h.custody.mem_given p m).mp hp
    · exact (h.custody.mem_returned m).mp hr
  · rintro rfl
    cases hplace : place m with
    | queued => exact .queued ((h.custody.mem_queue m).mpr hplace)
    | receiver p => exact .receiver p ((h.custody.mem_given p m).mpr hplace)
    | returned => exact .returned ((h.custody.mem_returned m).mpr hplace)
    | _ =>
      rw [hplace] at hsent
      cases hsent

/-- What a queue promises. -/
structure Sound (s : IpcState) (q : MsgQueue) : Prop where
  sum : q.sum_msg = q.q_message.length ∧ q.sum_msg ≤ q.max_msg
  /-- a process that waits to receive matches no queued message -/
  receivers : ∀ p msgsz, s.pc p = .recvAsleep msgsz → ∃ mtype,
    ⟨p, mtype, msgsz⟩ ∈ q.q_receiver ∧ ∀ m ∈ q.q_message, testmsg mtype m.mtype = false
  senders : ∀ p msgid msg msgflg, s.pc p = .sendAsleep msgid msg msgflg → q.sum_msg = q.max_msg
  place : ∀ m ∈ s.sent, ∃! x, At s q m x
  once : q.q_message.Nodup ∧ s.returned.Nodup
  /-- the pages of a message are freed once, when it is returned -/
  freed : ∀ m ∈ s.sent, ∀ n ∈ m.pages, s.freed.count n = if m ∈ s.returned then 1 else 0
  order : ∀ t, s.received.filter (·.mtype = t) <+: s.sent.filter (·.mtype = t)
  failed : ∀ l s' err, s.step l = some s' → err < 0 → s'.pc l.proc = .out err → s'.ids = s.ids

theorem Inv.sound (h : s.Inv id q) : s.Sound q := by
  obtain ⟨place, hkeeps⟩ := h.keeps
  refine ⟨⟨h.fits.sum, h.fits.room⟩, fun p msgsz hp => ?_, fun p msgid msg msgflg hp => ?_,
    fun m hm => ?_, ⟨hkeeps.custody.nodup.1, hkeeps.custody.nodup.2.1⟩, fun m hm n hn => ?_,
    fun t => ⟨_, h.ordered t⟩, fun l s' err hs herr hp => ?_⟩
  · obtain ⟨mtype, hmem⟩ := h.lists.recvAsleep p msgsz hp
    exact ⟨mtype, hmem, h.fits.unmatched _ hmem⟩
  · exact h.fits.full (List.ne_nil_of_mem ((h.lists.senders p).mpr ⟨msgid, msg, msgflg, hp⟩))
  · exact ⟨place m, (hkeeps.at_iff hm).mpr rfl, fun x hx => ((hkeeps.at_iff hm).mp hx).symm⟩
  · have hsent := (hkeeps.custody.mem_sent m).mp hm
    have hloaded : place m ≠ .nowhere := by
      intro hno
      rw [hno] at hsent
      cases hsent
    rw [hkeeps.leases.count m hloaded n hn]
    -- of the places of a message that was sent, only the last one is free of it
    have hiff : (place m).freed = true ↔ m ∈ s.returned := by
      rw [hkeeps.custody.mem_returned]
      cases hplace : place m <;> simp_all [Place.freed, Place.sent]
    simp only [hiff]
  · obtain ⟨q', hc⟩ := change_of_step h.table hs
    exact ids_of_failed hc herr hp

/-- The states of a run are such as a removal may find. -/
theorem Inv.waits (h : s.Inv id q) : s.Waits q := by
  obtain ⟨place, hkeeps⟩ := h.keeps
  have hplace : ∀ m ∈ q.q_message, place m = .queued := fun m hm =>
    (hkeeps.custody.mem_queue m).mp hm
  have hloaded : ∀ m ∈ q.q_message, place m ≠ .nowhere := by
    intro m hm
    rw [hplace m hm]
    simp
  refine ⟨fun r hr => (h.lists.receivers r hr).1, fun r hr => (h.lists.receivers r hr).2,
    fun p hp => (h.lists.senders p).mp hp, ?_, fun n hn => ?_⟩
  · refine List.nodup_flatMap.mpr ⟨fun m hm => hkeeps.leases.nodup m (hloaded m hm), ?_⟩
    refine hkeeps.custody.nodup.1.pairwise_of_forall_ne fun m hm m' hm' hne n hn hn' => ?_
    exact hkeeps.leases.disjoint m m' (hloaded m hm) (hloaded m' hm') hne n hn hn'
  · obtain ⟨m, hm, hn⟩ := List.mem_flatMap.mp hn
    have hcount := hkeeps.leases.count m (hloaded m hm) n hn
    rw [hplace m hm] at hcount
    exact List.count_eq_zero.mp hcount

/-- Where a search goes past a message of its type. -/
theorem overtakes_of_not_inOrder {l : IpcStep} (h : ¬ s.InOrder l) :
    ∃ p msgid msgsz mtype msgflg id q, l = .run p ∧
      s.pc p = .receiving msgid msgsz mtype msgflg ∧ s.ids.getMsgq msgid = .found id q ∧
      Overtakes mtype msgsz q.q_message := by
  cases l with
  | run p =>
    cases hp : s.pc p with
    | receiving msgid msgsz mtype msgflg =>
      cases hget : s.ids.getMsgq msgid with
      | found id q =>
        simp only [InOrder, hp, hget, not_not] at h
        exact ⟨p, msgid, msgsz, mtype, msgflg, id, q, rfl, hp, hget, h⟩
      | _ => simp [InOrder, hp, hget] at h
    | _ => simp [InOrder, hp] at h
  | _ => simp [InOrder] at h

/-- The first search that goes past a message of its type breaks the order. -/
theorem not_order_of_step {l : IpcStep} (h : s.Inv id q) (hin : ¬ s.InOrder l)
    (hs : s.step l = some s') :
    ∃ t, ¬ s'.received.filter (·.mtype = t) <+: s'.sent.filter (·.mtype = t) := by
  obtain ⟨place, hkeeps⟩ := h.keeps
  obtain ⟨p, msgid, msgsz, mtype, msgflg, id', q', rfl, hp, hget, hover⟩ :=
    overtakes_of_not_inOrder hin
  obtain ⟨rfl, rfl⟩ := getMsgq_of_table h.table hget
  obtain ⟨msg, hlast, hsize, -⟩ := id hover
  have hsearch : searchMsg mtype none q'.q_message = some msg := by
    rw [searchMsg_eq, Option.or_none]
    exact hlast
  simp only [step, run, hp, rcvSection, hget, hsearch, if_neg (Int.not_lt.mpr hsize)] at hs
  cases hs
  exact ⟨msg.mtype, not_prefix_of_overtakes h.ordered hkeeps.custody.nodup.1 hsearch hover⟩

end IpcState

/-- **A message queue is sound** as long as no `sys_msgrcv` that counts `mtype` up goes
past a message of the type it ends with; the first one that does overtakes a message. -/
theorem ipc_sound (s : IpcState) (h : ipcSystem.Reachable IpcState.InOrder s) :
    ∃ id q, s.ids.entries = Function.update (fun _ => none) id (some q) ∧ s.Sound q ∧
      ∀ l s', ¬ s.InOrder l → ipcSystem.step s l = some s' →
        ∀ q', s'.ids.entries id = some q' → ¬ s'.Sound q' := by
  obtain ⟨id, q, hi⟩ := IpcState.inv_of_reachable h
  refine ⟨id, q, by rw [hi.table.ids], hi.sound, fun l s' hin hs q' _ hsound => ?_⟩
  obtain ⟨t, ht⟩ := IpcState.not_order_of_step hi hin hs
  exact ht (hsound.order t)

/-- Two messages are sent, and a receiver takes the second, whose type it asks for. -/
theorem ipc_sound_two : ∃ s : IpcState, s.sent.map MsgMsg.mtype = [1, 2] ∧
    s.received.map MsgMsg.mtype = [2] ∧ ∃ q, s.Sound q := by
  have hrun : (ipcSystem.exec IpcState.InOrder .new
      [.msgsnd 0 0 (some ⟨1, fun _ => 1⟩) 2 0, .run 0, .msgsnd 1 0 (some ⟨2, fun _ => 2⟩) 2 0,
        .run 1, .msgrcv 2 0 (some ⟨0, fun _ => 0⟩) 4 2 0, .run 2]).map
      (fun s => (s.sent.map MsgMsg.mtype, s.received.map MsgMsg.mtype)) = some ([1, 2], [2]) := by
    decide
  obtain ⟨s, hs, heq⟩ := Option.map_eq_some_iff.mp hrun
  obtain ⟨hsent, hreceived⟩ := Prod.mk.inj heq
  obtain ⟨id, q, -, hsound, -⟩ := ipc_sound s ⟨_, IpcState.init_new, System.leads_of_exec hs⟩
  exact ⟨s, hsent, hreceived, q, hsound⟩

/-- **A message is overtaken**: of two messages of type 1, a receiver that asks for a type of
at most 2 takes the second. -/
theorem ipc_overtaken : ∃ s : IpcState, ipcSystem.Reachable (fun _ _ => True) s ∧
    s.sent.map MsgMsg.data = [[7], [8]] ∧ s.received.map MsgMsg.data = [[8]] ∧
    ∀ q, ¬ s.Sound q := by
  have hrun : (ipcSystem.exec (fun _ _ => True) .new
      [.msgsnd 0 0 (some ⟨1, fun _ => 7⟩) 1 0, .run 0, .msgsnd 1 0 (some ⟨1, fun _ => 8⟩) 1 0,
        .run 1, .msgrcv 2 0 (some ⟨0, fun _ => 0⟩) 4 (-2) 0, .run 2]).map
      (fun s => (s.sent, s.received))
      = some ([⟨0, 1, 1, [7], []⟩, ⟨1, 1, 1, [8], []⟩], [⟨1, 1, 1, [8], []⟩]) := by
    decide
  obtain ⟨s, hs, heq⟩ := Option.map_eq_some_iff.mp hrun
  obtain ⟨hsent, hreceived⟩ := Prod.mk.inj heq
  refine ⟨s, ⟨_, IpcState.init_new, System.leads_of_exec hs⟩, by rw [hsent]; rfl,
    by rw [hreceived]; rfl, fun q hsound => ?_⟩
  have horder := hsound.order 1
  rw [hsent, hreceived] at horder
  revert horder
  decide

end OsLab
