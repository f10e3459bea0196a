/-
Message queues (`common/ipc.h`, `common/ipc.c`).

`IpcState` has the table of queues and, for each process, where it is in `sys_msgsnd`
or `sys_msgrcv`; a step is one section under `msg_ids.lock`, or the part of a call
before or after it.  Pages are numbered as they are allocated, so that a page that is
freed twice would show twice in `freed`.

* `IpcState.step` — the sections of the calls;
* `IpcState.freeque` — the removal of a queue;
* `msgctl_rmid_iff` — which removals leave nobody behind: those of a queue without
  waiting receivers and senders.
-/
import OsLab.Lib.System
import Mathlib.Data.Int.Notation
import Mathlib.Data.List.Nodup
import Mathlib.Order.Basic
import Mathlib.Logic.Function.Basic

namespace OsLab

/-! ### Messages -/

/-- `MSG_MSGSZ`: what fits behind the header of a message in its first page -/
abbrev msgMsgsz : ℕ := 4096 - 32

/-- `MSG_MSGSEGSZ` -/
abbrev msgMsgsegsz : ℕ := 4096 - 8

/-- `msgbuf` -/
structure Msgbuf where
  mtype : ℤ
  data : ℕ → UInt8

/-- `msg_msgseg`: its page, and the bytes in use. -/
structure MsgSeg where
  page : ℕ
  data : List UInt8
  deriving DecidableEq, Repr

/-- `msg_msg` -/
structure MsgMsg where
  page : ℕ
  mtype : ℤ
  size : ℤ
  data : List UInt8
  nxt : List MsgSeg
  deriving DecidableEq, Repr

/-- The pages that `free_msg` gives back, in this order. -/
def MsgMsg.pages (msg : MsgMsg) : List ℕ := msg.nxt.map MsgSeg.page ++ [msg.page]

/-- `src[off .. off + n - 1]` -/
def bytesAt (src : ℕ → UInt8) (off n : ℕ) : List UInt8 :=
  (List.range n).map fun i => src (off + i)

/-- `memcpy(dst + off, bytes, ..)` -/
def putBytes (dst : ℕ → UInt8) (off : ℕ) (bytes : List UInt8) : ℕ → UInt8 :=
  fun i => if off ≤ i then bytes.getD (i - off) (dst i) else dst i

/-- The loop of `load_msg`; `fuel` is enough when it is `len`. -/
def loadSegs (src : ℕ → UInt8) : ℕ → ℕ → ℕ → ℕ → List MsgSeg
  | 0, _, _, _ => []
  | fuel + 1, off, len, page =>
    if 0 < len then
      let left := len - min msgMsgsegsz len
      -- `src` moves by what is left after `len` has been counted down
      ⟨page, bytesAt src off (min msgMsgsegsz len)⟩ ::
        loadSegs src fuel (off + min msgMsgsegsz left) left (page + 1)
    else []

/-- `load_msg` into the pages from `page` on, and the type and the size set after it. -/
def loadMsg (msgp : Msgbuf) (len page : ℕ) : MsgMsg :=
  let left := len - min msgMsgsz len
  { page := page
    mtype := msgp.mtype
    size := len
    data := bytesAt msgp.data 0 (min msgMsgsz len)
    nxt := loadSegs msgp.data left (min msgMsgsz left) left (page + 1) }

/-- The loop of `store_msg`. -/
def storeSegs : (ℕ → UInt8) → ℕ → ℕ → List MsgSeg → ℕ → UInt8
  | dst, _, _, [] => dst
  | dst, off, msgsz, sg :: segs =>
    if 0 < msgsz then
      let left := msgsz - min msgsz msgMsgsegsz
      storeSegs (putBytes dst off (sg.data.take (min msgsz msgMsgsegsz)))
        (off + min left msgMsgsegsz) left segs
    else dst

/-- `store_msg` -/
def storeMsg (dst : Msgbuf) (msg : MsgMsg) (msgsz : ℕ) : Msgbuf :=
  let left := msgsz - min msgMsgsz msgsz
  ⟨msg.mtype, storeSegs (putBytes dst.data 0 (msg.data.take (min msgsz msgMsgsz)))
    (min msgMsgsz left) left msg.nxt⟩

/-- `testmsg` -/
def testmsg (rqtype type : ℤ) : Bool :=
  if rqtype = 0 then true
  else if rqtype < 0 then decide (rqtype + type ≤ 0)
  else decide (rqtype = type)

/-! ### Queues -/

/-- `msg_receiver`, but for `r_msg`, which the receiver reads when it runs again. -/
structure MsgReceiver where
  proc : ℕ
  mtype : ℤ
  size : ℤ
  deriving DecidableEq, Repr

/-- `msg_queue`; the lists are read from `next` to `prev`, and `q_sender` by its processes. -/
structure MsgQueue where
  seq : ℤ
  max_msg : ℤ
  sum_msg : ℤ
  q_message : List MsgMsg
  q_sender : List ℕ
  q_receiver : List MsgReceiver
  deriving DecidableEq, Repr

/-- `SEQ_MULTIPLIER` -/
abbrev seqMultiplier : ℤ := 16

/-- `ipc_ids` -/
structure IpcIds where
  size : ℤ
  in_use : ℤ
  entries : ℕ → Option MsgQueue

/-- What `get_msgq` returns. -/
inductive Lookup
  /-- the index is negative, so the load is outside `entries` -/
  | outside
  | null
  | found (id : ℕ) (q : MsgQueue)

/-- `get_msgq` -/
def IpcIds.getMsgq (ids : IpcIds) (msgid : ℤ) : Lookup :=
  let id := msgid.tmod seqMultiplier
  if ids.size ≤ id then .null
  else if id < 0 then .outside
  else match ids.entries id.toNat with
    | none => .null
    | some q => if msgid.tdiv seqMultiplier ≠ q.seq then .null else .found id.toNat q

/-- The queue that is found is in the slot that the identifier names, and has its number. -/
theorem IpcIds.of_found {ids : IpcIds} {msgid : ℤ} {id : ℕ} {q : MsgQueue}
    (h : ids.getMsgq msgid = .found id q) : ids.entries id = some q ∧ (id : ℤ) < ids.size ∧
      msgid.tmod seqMultiplier = id ∧ msgid.tdiv seqMultiplier = q.seq := by
  unfold getMsgq at h
  dsimp only at h
  split at h
  · cases h
  · rename_i hsize
    split at h
    · cases h
    · rename_i hneg
      split at h
      · cases h
      · rename_i q' hq
        split at h
        · cases h
        · rename_i hseq
          cases h
          exact ⟨hq, by omega, by omega, not_not.mp hseq⟩

/-- `pipeline_send`: the receiver that gets the message, if there is one, and the list
without it.  A receiver whose buffer is too small has been detached when the loop goes on
from it, and so the loop does not end. -/
def pipelineSend (msg : MsgMsg) : List MsgReceiver → Option (Option (MsgReceiver × List MsgReceiver))
  | [] => some none
  | r :: rs =>
    if testmsg r.mtype msg.mtype then
      if r.size < msg.size then none else some (some (r, rs))
    else (pipelineSend msg rs).map (Option.map fun x => (x.1, r :: x.2))

/-- The search of `sys_msgrcv`, with its variables `mtype` and `found_msg`. -/
def searchMsg : ℤ → Option MsgMsg → List MsgMsg → Option MsgMsg
  | _, found, [] => found
  | mtype, found, msg :: msgs =>
    if testmsg mtype msg.mtype then
      if mtype < -1 then searchMsg (mtype + 1) (some msg) msgs else some msg
    else searchMsg mtype found msgs

/-! ### Processes -/

abbrev errInval : ℤ := -5
abbrev errAgain : ℤ := -6
abbrev errIdrm : ℤ := -7
abbrev err2big : ℤ := -8
abbrev errNomsg : ℤ := -9

/-- `msgflg & IPC_NOWAIT` -/
def ipcNowait (msgflg : BitVec 32) : Bool := msgflg &&& 1 != 0

/-- Where a process is in `sys_msgsnd` or `sys_msgrcv`. -/
inductive IpcPc
  /-- has returned -/
  | out (ret : ℤ)
  /-- before `_acquire_spinlock(&msg_ids.lock)` of `sys_msgsnd` -/
  | sending (msgid : ℤ) (msg : MsgMsg) (msgflg : BitVec 32)
  | sendAsleep (msgid : ℤ) (msg : MsgMsg) (msgflg : BitVec 32)
  | receiving (msgid msgsz mtype : ℤ) (msgflg : BitVec 32)
  | recvAsleep (msgsz : ℤ)
  | recvWoken (msgsz : ℤ)
  /-- before `store_msg` and `free_msg` -/
  | storing (msg : MsgMsg) (msgsz : ℤ)
  deriving DecidableEq

/-- A process that sleeps goes on; the others are not changed. -/
def IpcPc.activated : IpcPc → IpcPc
  | .sendAsleep msgid msg msgflg => .sending msgid msg msgflg
  | .recvAsleep msgsz => .recvWoken msgsz
  | pc => pc

/-- `receiver.r_msg` -/
inductive RMsg
  /-- not initialised -/
  | unset
  | null
  | msg (m : MsgMsg)
  deriving DecidableEq

/-- The queues, the processes and the pages of messages; `sent` has the messages that
were sent in this order, `received` those that a receiver was given, in this order, and
`returned` those that `sys_msgrcv` has returned. -/
structure IpcState where
  ids : IpcIds
  pc : ℕ → IpcPc
  rMsg : ℕ → RMsg
  /-- `*msgp` of a call of `sys_msgrcv` -/
  buf : ℕ → Msgbuf
  nextPage : ℕ
  freed : List ℕ
  sent : List MsgMsg
  received : List MsgMsg
  returned : List MsgMsg

/-- A process calls a function, or goes on with the one it has called. -/
inductive IpcStep
  | msgsnd (p : ℕ) (msgid : ℤ) (msgp : Option Msgbuf) (msgsz : ℤ) (msgflg : BitVec 32)
  | msgrcv (p : ℕ) (msgid : ℤ) (msgp : Option Msgbuf) (msgsz mtype : ℤ) (msgflg : BitVec 32)
  | run (p : ℕ)

namespace IpcState

/-- `activate_proc` -/
def activate (pc : ℕ → IpcPc) (p : ℕ) : ℕ → IpcPc := Function.update pc p (pc p).activated

/-- `ss_wakeup`: the processes of a list, which becomes empty. -/
def ssWakeup (pc : ℕ → IpcPc) (procs : List ℕ) : ℕ → IpcPc := procs.foldl activate pc

/-- `free_msg` -/
def freeMsg (s : IpcState) (msg : MsgMsg) : IpcState := { s with freed := s.freed ++ msg.pages }

/-- The call returns. -/
def ret (s : IpcState) (p : ℕ) (r : ℤ) : IpcState :=
  { s with pc := Function.update s.pc p (.out r) }

def setQueue (s : IpcState) (id : ℕ) (q : MsgQueue) : IpcState :=
  { s with ids := { s.ids with entries := Function.update s.ids.entries id (some q) } }

/-- `sys_msgsnd` before the lock. -/
def msgsnd (s : IpcState) (p : ℕ) (msgid : ℤ) (msgp : Option Msgbuf) (msgsz : ℤ)
    (msgflg : BitVec 32) : IpcState :=
  match msgp with
  | none => s.ret p errInval
  | some msgp =>
    if msgsz < 0 ∨ msgp.mtype < 1 then s.ret p errInval
    else
      let msg := loadMsg msgp msgsz.toNat s.nextPage
      { s with
        pc := Function.update s.pc p (.sending msgid msg msgflg)
        nextPage := s.nextPage + msg.pages.length }

/-- The section of `sys_msgsnd`. -/
def sndSection (s : IpcState) (p : ℕ) (msgid : ℤ) (msg : MsgMsg) (msgflg : BitVec 32) :
    Option IpcState :=
  match s.ids.getMsgq msgid with
  | .outside => none
  | .null => some ((s.freeMsg msg).ret p errIdrm)
  | .found id q =>
    if q.max_msg < q.sum_msg + 1 then
      if ipcNowait msgflg then some ((s.freeMsg msg).ret p errAgain)
      else some { s.setQueue id { q with q_sender := q.q_sender ++ [p] } with
        pc := Function.update s.pc p (.sendAsleep msgid msg msgflg) }
    else (pipelineSend msg q.q_receiver).map fun r =>
      match r with
      | some (r, rs) =>
        { s.setQueue id { q with q_receiver := rs } with
          pc := Function.update (activate s.pc r.proc) p (.out 0)
          rMsg := Function.update s.rMsg r.proc (.msg msg)
          sent := s.sent ++ [msg]
          received := s.received ++ [msg] }
      | none =>
        { (s.setQueue id
            { q with q_message := q.q_message ++ [msg], sum_msg := q.sum_msg + 1 }).ret p 0 with
          sent := s.sent ++ [msg] }

/-- `sys_msgrcv` before the lock. -/
def msgrcv (s : IpcState) (p : ℕ) (msgid : ℤ) (msgp : Option Msgbuf) (msgsz mtype : ℤ)
    (msgflg : BitVec 32) : IpcState :=
  match msgp with
  | none => s.ret p errInval
  | some msgp =>
    if msgsz < 0 then s.ret p errInval
    else { s with
      pc := Function.update s.pc p (.receiving msgid msgsz mtype msgflg)
      buf := Function.update s.buf p msgp }

/-- The section of `sys_msgrcv`. -/
def rcvSection (s : IpcState) (p : ℕ) (msgid msgsz mtype : ℤ) (msgflg : BitVec 32) :
    Option IpcState :=
  match s.ids.getMsgq msgid with
  | .outside => none
  | .null => some (s.ret p errIdrm)
  | .found id q =>
    match searchMsg mtype none q.q_message with
    | some msg =>
      if msgsz < msg.size then some (s.ret p err2big)
      else some { s.setQueue id { q with
          q_message := q.q_message.erase msg
          sum_msg := q.sum_msg - 1
          q_sender := [] } with
        pc := Function.update (ssWakeup s.pc q.q_sender) p (.storing msg (min msgsz msg.size))
        received := s.received ++ [msg] }
    | none =>
      if ipcNowait msgflg then some (s.ret p errNomsg)
      else some { s.setQueue id { q with q_receiver := q.q_receiver ++ [⟨p, mtype, msgsz⟩] } with
        pc := Function.update s.pc p (.recvAsleep msgsz)
        rMsg := Function.update s.rMsg p .unset }

/-- `store_msg`, `free_msg` and the end of `sys_msgrcv`. -/
def store (s : IpcState) (p : ℕ) (msg : MsgMsg) (msgsz : ℤ) : IpcState :=
  { (s.freeMsg msg).ret p msgsz with
    buf := Function.update s.buf p (storeMsg (s.buf p) msg msgsz.toNat)
    returned := s.returned ++ [msg] }

/-- The process goes on; `none` when it sleeps, has no call, or reads what is not there. -/
def run (s : IpcState) (p : ℕ) : Option IpcState :=
  match s.pc p with
  | .sending msgid msg msgflg => s.sndSection p msgid msg msgflg
  | .receiving msgid msgsz mtype msgflg => s.rcvSection p msgid msgsz mtype msgflg
  | .recvWoken msgsz =>
    match s.rMsg p with
    | .unset => none
    | .null => some (s.ret p err2big)
    | .msg msg => some { s with pc := Function.update s.pc p (.storing msg (min msgsz msg.size)) }
  | .storing msg msgsz => some (s.store p msg msgsz)
  | .out _ | .sendAsleep .. | .recvAsleep _ => none

/-- The process has no call in progress. -/
def Idle (s : IpcState) (p : ℕ) : Prop := ∃ r, s.pc p = .out r

instance (s : IpcState) (p : ℕ) : Decidable (s.Idle p) :=
  match h : s.pc p with
  | .out r => isTrue ⟨r, h⟩
  | .sending .. | .sendAsleep .. | .receiving .. | .recvAsleep _ | .recvWoken _ | .storing .. =>
    isFalse fun ⟨r, hr⟩ => by rw [h] at hr; cases hr

def step (s : IpcState) : IpcStep → Option IpcState
  | .msgsnd p msgid msgp msgsz msgflg =>
    if s.Idle p then some (s.msgsnd p msgid msgp msgsz msgflg) else none
  | .msgrcv p msgid msgp msgsz mtype msgflg =>
    if s.Idle p then some (s.msgrcv p msgid msgp msgsz mtype msgflg) else none
  | .run p => s.run p

end IpcState

/-- `MAX_MSGNUM` -/
abbrev maxMsgnum : ℤ := 256

/-- The queue that `newque` makes. -/
def MsgQueue.new (seq : ℤ) : MsgQueue := ⟨seq, maxMsgnum, 0, [], [], []⟩

/-- One queue in the table, and no call so far. -/
def ipcSystem : System IpcState IpcStep where
  init s := (∃ id : ℕ, ∃ seq, (id : ℤ) < 16 ∧
      s.ids = ⟨16, 1, Function.update (fun _ => none) id (some (.new seq))⟩) ∧
    (∀ p, s.Idle p) ∧ s.freed = [] ∧ s.sent = [] ∧ s.received = [] ∧ s.returned = []
  step := IpcState.step

namespace IpcState

/-! ### Removal -/

/-- `expunge_all` -/
def expungeAll (s : IpcState) (rs : List MsgReceiver) : IpcState :=
  rs.foldl (fun s r => { s with
    rMsg := Function.update s.rMsg r.proc .null
    pc := activate s.pc r.proc }) s

/-- `freeque`, with the queue as it is handed to `kfree`. -/
def freeque (s : IpcState) (msgid : ℤ) : Option (IpcState × Option MsgQueue) :=
  match s.ids.getMsgq msgid with
  | .outside => none
  | .null => some (s, none)
  | .found id q =>
    let s := { s with ids := { s.ids with
      entries := Function.update s.ids.entries id none
      in_use := s.ids.in_use - 1 } }
    -- `ss_wakeup(&msgq->q_receiver)`
    let s := { s with pc := ssWakeup s.pc (q.q_receiver.map MsgReceiver.proc) }
    let q := { q with q_receiver := [] }
    let s := s.expungeAll q.q_receiver
    let s := q.q_message.foldl freeMsg s
    some (s, some { q with q_message := [] })

/-- `sys_msgctl` -/
def msgctl (s : IpcState) (msgid cmd : ℤ) : Option (ℤ × IpcState × Option MsgQueue) :=
  if cmd = 0 then (s.freeque msgid).map fun r => (0, r) else some (errInval, s, none)

/-! ### Waking up -/

section wakeup

variable {pc : ℕ → IpcPc} {p q : ℕ}

theorem activated_activated (c : IpcPc) : c.activated.activated = c.activated := by
  cases c <;> rfl

theorem activate_of_ne (h : q ≠ p) : activate pc p q = pc q := Function.update_of_ne h _ _

/-- Each process of the list is activated, and no other. -/
theorem ssWakeup_apply (procs : List ℕ) :
    ssWakeup pc procs q = if q ∈ procs then (pc q).activated else pc q := by
  induction procs generalizing pc with
  | nil => rfl
  | cons p procs ih =>
    rw [ssWakeup, List.foldl_cons, ← ssWakeup, ih]
    by_cases hq : q = p
    · subst hq
      simp [activate, activated_activated]
    · simp [activate_of_ne hq, hq]

end wakeup

/-! ### What a removal leaves -/

variable {s s' : IpcState} {msgid : ℤ} {id : ℕ} {q q' : MsgQueue} {p : ℕ}

/-- The processes on the lists of the queue sleep in its functions, a receiver has
nothing in `r_msg`, and the pages of the messages are in use. -/
structure Waits (s : IpcState) (q : MsgQueue) : Prop where
  receivers : ∀ r ∈ q.q_receiver, s.pc r.proc = .recvAsleep r.size
  unset : ∀ r ∈ q.q_receiver, s.rMsg r.proc = .unset
  senders : ∀ p ∈ q.q_sender, ∃ msgid msg msgflg, s.pc p = .sendAsleep msgid msg msgflg
  nodup : (q.q_message.flatMap MsgMsg.pages).Nodup
  pages : ∀ n ∈ q.q_message.flatMap MsgMsg.pages, n ∉ s.freed

/-- The removal of a queue leaves nobody behind: every receiver has been woken with
`r_msg` cleared and returns an error, every sender has been woken and finds the queue
gone, every page of a message has been freed once, and the lists are empty. -/
structure Removed (s' : IpcState) (q q' : MsgQueue) : Prop where
  receivers : ∀ r ∈ q.q_receiver, s'.rMsg r.proc = .null ∧
    ∃ t err, s'.run r.proc = some t ∧ t.pc r.proc = .out err ∧ err < 0
  senders : ∀ p ∈ q.q_sender, ∃ t, s'.run p = some t ∧ t.pc p = .out errIdrm
  messages : ∀ msg ∈ q.q_message, ∀ n ∈ msg.pages, s'.freed.count n = 1
  lists : q'.q_receiver = [] ∧ q'.q_sender = [] ∧ q'.q_message = []

theorem foldl_freeMsg (msgs : List MsgMsg) (s : IpcState) :
    msgs.foldl freeMsg s = { s with freed := s.freed ++ msgs.flatMap MsgMsg.pages } := by
  induction msgs generalizing s with
  | nil => simp
  | cons msg msgs ih =>
    rw [List.foldl_cons, ih, freeMsg, List.flatMap_cons, List.append_assoc]

/-- What `freeque` does to a queue: the receivers run again with `r_msg` as it was, and
the senders sleep on. -/
theorem freeque_eq (hq : s.ids.getMsgq msgid = .found id q) : s.freeque msgid = some
    ({ s with
      ids := { s.ids with
        entries := Function.update s.ids.entries id none
        in_use := s.ids.in_use - 1 }
      pc := ssWakeup s.pc (q.q_receiver.map MsgReceiver.proc)
      freed := s.freed ++ q.q_message.flatMap MsgMsg.pages },
    some { q with q_receiver := [], q_message := [] }) := by
  simp only [freeque, hq, expungeAll, List.foldl_nil, foldl_freeMsg]

/-- Each page of a message is freed once. -/
theorem Waits.count_freed (h : s.Waits q) {n : ℕ}
    (hn : n ∈ q.q_message.flatMap MsgMsg.pages) :
    (s.freed ++ q.q_message.flatMap MsgMsg.pages).count n = 1 := by
  rw [List.count_append, List.count_eq_zero_of_not_mem (h.pages n hn),
    List.count_eq_one_of_mem h.nodup hn]

/-- Whom a removal leaves behind: a receiver runs with nothing in `r_msg`, and a sender
sleeps on the list of the queue that has been freed. -/
theorem left_behind (hw : s.Waits q) (hq : s.ids.getMsgq msgid = .found id q)
    (hs : s.freeque msgid = some (s', some q')) :
    (∀ r ∈ q.q_receiver, s'.pc r.proc = .recvWoken r.size ∧ s'.run r.proc = none) ∧
    ∀ p ∈ q.q_sender, s'.pc p = s.pc p ∧ p ∈ q'.q_sender := by
  rw [freeque_eq hq, Option.some_inj, Prod.mk.injEq, Option.some_inj] at hs
  obtain ⟨rfl, rfl⟩ := hs
  constructor
  · intro r hr
    have hpc : ssWakeup s.pc (q.q_receiver.map MsgReceiver.proc) r.proc = .recvWoken r.size := by
      rw [ssWakeup_apply, if_pos (List.mem_map_of_mem hr), hw.receivers r hr]
      rfl
    refine ⟨hpc, ?_⟩
    simp only [run, hpc, hw.unset r hr]
  · intro p hp
    refine ⟨?_, hp⟩
    obtain ⟨msgid, msg, msgflg, hpc⟩ := hw.senders p hp
    -- a process that waits to send is not on the list of receivers
    have hnot : p ∉ q.q_receiver.map MsgReceiver.proc := by
      intro hmem
      obtain ⟨r, hr, rfl⟩ := List.mem_map.mp hmem
      have hrec := hw.receivers r hr
      rw [hpc] at hrec
      cases hrec
    show ssWakeup s.pc (q.q_receiver.map MsgReceiver.proc) p = s.pc p
    rw [ssWakeup_apply, if_neg hnot]

/-- `sys_msgctl` on a queue removes it properly exactly when nobody waits. -/
theorem removed_iff (hw : s.Waits q) (hq : s.ids.getMsgq msgid = .found id q)
    (hs : s.freeque msgid = some (s', some q')) :
    Removed s' q q' ↔ q.q_receiver = [] ∧ q.q_sender = [] := by
  rw [freeque_eq hq, Option.some_inj, Prod.mk.injEq, Option.some_inj] at hs
  obtain ⟨rfl, rfl⟩ := hs
  constructor
  · intro h
    refine ⟨List.eq_nil_iff_forall_not_mem.mpr fun r hr => ?_, h.lists.2.1⟩
    have hnull := (h.receivers r hr).1
    have hunset := hw.unset r hr
    exact absurd (hnull.symm.trans hunset) (by simp)
  · rintro ⟨hrec, hsend⟩
    refine ⟨fun r hr => ?_, fun p hp => ?_, fun msg hmsg n hn => ?_, rfl, hsend, rfl⟩
    · rw [hrec] at hr
      cases hr
    · rw [hsend] at hp
      cases hp
    · exact hw.count_freed (List.mem_flatMap.mpr ⟨msg, hmsg, hn⟩)

end IpcState

/-- **Removing a queue**: `sys_msgctl(msgid, IPC_RMID)` leaves nobody behind exactly when
no receiver and no sender waits, since it wakes the receivers where it should wake the
senders. -/
theorem msgctl_rmid_iff (s : IpcState) (msgid : ℤ) (id : ℕ) (q : MsgQueue)
    (hq : s.ids.getMsgq msgid = .found id q) (hw : s.Waits q) :
    ∃ s' q', s.msgctl msgid 0 = some (0, s', some q') ∧
      (IpcState.Removed s' q q' ↔ q.q_receiver = [] ∧ q.q_sender = []) := by
  have hfree := IpcState.freeque_eq hq
  refine ⟨_, _, ?_, IpcState.removed_iff hw hq hfree⟩
  rw [IpcState.msgctl, if_pos rfl, hfree, Option.map_some]

namespace IpcState

/-- A queue of number `0` and processes that have not called anything. -/
def new : IpcState where
  ids := ⟨16, 1, Function.update (fun _ => none) 0 (some (.new 0))⟩
  pc := fun _ => .out 0
  rMsg := fun _ => .unset
  buf := fun _ => ⟨0, fun _ => 0⟩
  nextPage := 0
  freed := []
  sent := []
  received := []
  returned := []

theorem init_new : ipcSystem.init new :=
  ⟨⟨0, 0, by decide, rfl⟩, fun _ => ⟨0, rfl⟩, rfl, rfl, rfl, rfl⟩

end IpcState

namespace IpcState

/-- Queue `0` of a table. -/
theorem getMsgq_zero {s : IpcState} {q : MsgQueue} (hsize : s.ids.size = 16)
    (hentry : s.ids.entries 0 = some q) (hseq : q.seq = 0) :
    s.ids.getMsgq 0 = .found 0 q := by
  simp [IpcIds.getMsgq, hsize, hentry, hseq]

end IpcState

/-- A queue with one message is removed, and its page is freed. -/
theorem msgctl_rmid_one : ∃ (s s' : IpcState) (q q' : MsgQueue),
    q.q_message.map MsgMsg.mtype = [5] ∧ s.msgctl 0 0 = some (0, s', some q') ∧
    IpcState.Removed s' q q' := by
  have hrun : (ipcSystem.exec (fun _ _ => True) .new
      [.msgsnd 7 0 (some ⟨5, fun _ => 1⟩) 2 0, .run 7]).map
      (fun s => (s.ids.size, s.ids.entries 0, s.freed))
      = some (16, some ⟨0, 256, 1, [⟨0, 5, 2, [1, 1], []⟩], [], []⟩, []) := by
    decide
  obtain ⟨s, -, heq⟩ := Option.map_eq_some_iff.mp hrun
  obtain ⟨hsize, heq⟩ := Prod.mk.inj heq
  obtain ⟨hentry, hfreed⟩ := Prod.mk.inj heq
  have hq := IpcState.getMsgq_zero hsize hentry rfl
  have hw : s.Waits ⟨0, 256, 1, [⟨0, 5, 2, [1, 1], []⟩], [], []⟩ := by
    refine ⟨by simp, by simp, by simp, by decide, fun n _ => ?_⟩
    rw [hfreed]
    exact List.not_mem_nil
  obtain ⟨s', q', hctl, hiff⟩ := msgctl_rmid_iff s 0 0 _ hq hw
  exact ⟨s, s', _, q', rfl, hctl, hiff.mpr ⟨rfl, rfl⟩⟩

/-- **A receiver is left behind**: it is woken without anything in `r_msg`. -/
theorem msgctl_rmid_receiver : ∃ (s s' : IpcState) (q q' : MsgQueue),
    ipcSystem.Reachable (fun _ _ => True) s ∧ s.ids.getMsgq 0 = .found 0 q ∧ s.Waits q ∧
    q.q_receiver = [⟨7, 5, 10⟩] ∧ s.msgctl 0 0 = some (0, s', some q') ∧
    ¬ IpcState.Removed s' q q' := by
  have hrun : (ipcSystem.exec (fun _ _ => True) .new
      [.msgrcv 7 0 (some ⟨0, fun _ => 0⟩) 10 5 0, .run 7]).map
      (fun s => ((s.ids.size, s.ids.entries 0), s.pc 7, s.rMsg 7))
      = some ((16, some ⟨0, 256, 0, [], [], [⟨7, 5, 10⟩]⟩), .recvAsleep 10, .unset) := by
    decide
  obtain ⟨s, hs, heq⟩ := Option.map_eq_some_iff.mp hrun
  obtain ⟨hids, heq⟩ := Prod.mk.inj heq
  obtain ⟨hsize, hentry⟩ := Prod.mk.inj hids
  obtain ⟨hpc, hunset⟩ := Prod.mk.inj heq
  have hq := IpcState.getMsgq_zero hsize hentry rfl
  have hw : s.Waits ⟨0, 256, 0, [], [], [⟨7, 5, 10⟩]⟩ := by
    refine ⟨?_, ?_, by simp, by simp, by simp⟩
    · simpa using hpc
    · simpa using hunset
  obtain ⟨s', q', hfree⟩ : ∃ s' q', s.freeque 0 = some (s', some q') :=
    ⟨_, _, IpcState.freeque_eq hq⟩
  refine ⟨s, s', _, q', ⟨_, IpcState.init_new, System.leads_of_exec hs⟩, hq, hw, rfl, ?_,
    fun hremoved => ?_⟩
  · rw [IpcState.msgctl, if_pos rfl, hfree, Option.map_some]
  · have hnil := ((IpcState.removed_iff hw hq hfree).mp hremoved).1
    simp at hnil

end OsLab
