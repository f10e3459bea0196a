/-
The identifiers of message queues (`sys_msgget` and `sys_msgctl` of `common/ipc.c`).

An identifier packs the slot of a queue and its number, which comes from the 16-bit counter
`msg_ids.seq`.  A state keeps all identifiers that were returned, with the queue they were
returned for; queues are numbered in the order of their creation.

* `MsgIds.Resolves` — `get_msgq` finds the queue of an identifier as long as it exists, and
  nothing after its removal;
* `MsgIds.Fresh` — a new queue does not get the slot and the number of an earlier one;
* `msgget_resolves` — so it is in these runs, and a queue that is not fresh breaks it;
* `msgget_stale` — the counter comes round after 65536 queues.
-/
import OsLab.Common.Ipc

namespace OsLab

abbrev errNomem : ℤ := -1
abbrev errNoseq : ℤ := -2
abbrev errNoent : ℤ := -3
abbrev errExist : ℤ := -4

/-- `ipc_buildin` -/
def ipcBuildin (id : ℕ) (seq : ℤ) : ℤ := seq * seqMultiplier + id

/-- `msg_ids`, and the history of the queues. -/
structure MsgIds where
  ids : IpcIds
  /-- `msg_ids.seq` -/
  seq : BitVec 16
  /-- `que->key` of the queue in the slot -/
  key : ℕ → ℤ
  /-- the queue in the slot -/
  owner : ℕ → ℕ
  /-- the slot and the number that each queue was given -/
  made : List (ℕ × BitVec 16)
  /-- the identifiers that were returned, and the queues they were returned for -/
  returned : List (ℕ × ℤ)
  /-- what the last call returned -/
  ret : ℤ

inductive MsgIdsStep
  /-- `alloc` says whether `kalloc` has memory -/
  | msgget (key : ℤ) (msgflg : BitVec 32) (alloc : Bool)
  | msgctl (msgid cmd : ℤ)

namespace MsgIds

/-- The search of `ipc_addid`. -/
def freeSlot (s : MsgIds) : Option ℕ :=
  (List.range s.ids.size.toNat).find? fun id => (s.ids.entries id).isNone

/-- `ipc_addid` and the rest of `newque`. -/
def addQueue (s : MsgIds) (key : ℤ) (id : ℕ) : MsgIds where
  ids := { s.ids with
    in_use := s.ids.in_use + 1
    entries := Function.update s.ids.entries id (some (.new s.seq.toNat)) }
  seq := s.seq + 1
  key := Function.update s.key id key
  owner := Function.update s.owner id s.made.length
  made := s.made ++ [(id, s.seq)]
  returned := s.returned ++ [(s.made.length, ipcBuildin id s.seq.toNat)]
  ret := ipcBuildin id s.seq.toNat

/-- `newque` -/
def newque (s : MsgIds) (key : ℤ) (alloc : Bool) : MsgIds :=
  if !alloc then { s with ret := errNomem }
  else match s.freeSlot with
    | none => { s with ret := errNoseq }
    | some id => s.addQueue key id

/-- `ipc_findkey` -/
def findkey (s : MsgIds) (key : ℤ) : Option ℕ :=
  (List.range s.ids.size.toNat).find? fun id =>
    (s.ids.entries id).isSome && s.key id == key

/-- `msgflg & IPC_CREATE` -/
def ipcCreate (msgflg : BitVec 32) : Bool := msgflg &&& 2 != 0

/-- `msgflg & IPC_EXCL` -/
def ipcExcl (msgflg : BitVec 32) : Bool := msgflg &&& 1 != 0

/-- `sys_msgget` -/
def msgget (s : MsgIds) (key : ℤ) (msgflg : BitVec 32) (alloc : Bool) : MsgIds :=
  -- `IPC_PRIVATE`
  if key = 0 then s.newque key alloc
  else match s.findkey key with
    | none => if ipcCreate msgflg then s.newque key alloc else { s with ret := errNoent }
    | some id =>
      if ipcExcl msgflg then { s with ret := errExist }
      else match s.ids.entries id with
        | none => s
        | some q => { s with
            returned := s.returned ++ [(s.owner id, ipcBuildin id q.seq)]
            ret := ipcBuildin id q.seq }

/-- `freeque`, as far as the table is concerned. -/
def freeque (s : MsgIds) (msgid : ℤ) : Option MsgIds :=
  match s.ids.getMsgq msgid with
  | .outside => none
  | .null => some s
  | .found id _ => some { s with ids := { s.ids with
      in_use := s.ids.in_use - 1
      entries := Function.update s.ids.entries id none } }

def step (s : MsgIds) : MsgIdsStep → Option MsgIds
  | .msgget key msgflg alloc => some (s.msgget key msgflg alloc)
  | .msgctl msgid cmd =>
    -- `IPC_RMID`
    if cmd = 0 then (s.freeque msgid).map fun s => { s with ret := 0 }
    else some { s with ret := errInval }

/-- The queue exists, in this slot. -/
def In (s : MsgIds) (n id : ℕ) : Prop := (s.ids.entries id).isSome ∧ s.owner id = n

/-- An identifier resolves to its queue as long as this exists, and to nothing afterwards. -/
def Resolves (s : MsgIds) : Prop :=
  ∀ n m, (n, m) ∈ s.returned →
    (∀ id, s.In n id → ∃ q, s.ids.getMsgq m = .found id q ∧ s.ids.entries id = some q) ∧
    ((∀ id, ¬s.In n id) → s.ids.getMsgq m = .null)

/-- The calls of `sys_msgget` that ask for a new queue. -/
def asksNew (s : MsgIds) (key : ℤ) (msgflg : BitVec 32) (alloc : Bool) : Bool :=
  alloc && (key == 0 || (s.findkey key).isNone && ipcCreate msgflg)

/-- A queue that is created now does not get the slot and the number of an earlier one. -/
def Fresh (s : MsgIds) : MsgIdsStep → Prop
  | .msgget key msgflg alloc => s.asksNew key msgflg alloc → ∀ id, s.freeSlot = some id →
      (id, s.seq) ∉ s.made
  | .msgctl .. => True

instance (s : MsgIds) (l : MsgIdsStep) : Decidable (s.Fresh l) :=
  match l with
  | .msgget key msgflg alloc =>
    match h : s.freeSlot with
    | none => .isTrue fun _ id hid => by simp [h] at hid
    | some id => decidable_of_iff (s.asksNew key msgflg alloc → (id, s.seq) ∉ s.made)
        (by simp [Fresh, h])
  | .msgctl .. => .isTrue trivial

end MsgIds

/-- `init_ipc` -/
def msgIdsSystem : System MsgIds MsgIdsStep where
  init s := s.ids.size = 16 ∧ s.ids.in_use = 0 ∧ (∀ id, s.ids.entries id = none) ∧ s.seq = 0 ∧
    s.made = [] ∧ s.returned = []
  step := MsgIds.step

namespace MsgIds

variable {s t : MsgIds} {n id : ℕ} {m : ℤ}

/-- What holds in all runs. -/
structure Inv (s : MsgIds) : Prop where
  size : s.ids.size = 16
  /-- a queue has the slot and the number that it was given -/
  slot : ∀ id q, s.ids.entries id = some q →
    ∃ w, s.made[s.owner id]? = some (id, w) ∧ q.seq = w.toNat
  returned : ∀ n m, (n, m) ∈ s.returned →
    ∃ id w, s.made[n]? = some (id, w) ∧ m = ipcBuildin id w.toNat
  made : ∀ n id w, s.made[n]? = some (id, w) → id < 16 ∧ (n, ipcBuildin id w.toNat) ∈ s.returned

/-- How `get_msgq` takes an identifier apart. -/
theorem getMsgq_buildin (hsize : s.ids.size = 16) (hid : id < 16) (w : BitVec 16) :
    s.ids.getMsgq (ipcBuildin id w.toNat) = match s.ids.entries id with
      | none => .null
      | some q => if (w.toNat : ℤ) ≠ q.seq then .null else .found id q := by
  have hm : ipcBuildin id w.toNat = (w.toNat : ℤ) * 16 + id := rfl
  have hmod : (ipcBuildin id w.toNat).tmod seqMultiplier = id := by
    rw [hm, Int.tmod_eq_emod_of_nonneg (by omega)]
    show ((w.toNat : ℤ) * 16 + id) % 16 = id
    omega
  have hdiv : (ipcBuildin id w.toNat).tdiv seqMultiplier = w.toNat := by
    rw [hm, Int.tdiv_eq_ediv_of_nonneg (by omega)]
    show ((w.toNat : ℤ) * 16 + id) / 16 = w.toNat
    omega
  unfold IpcIds.getMsgq
  simp only [hmod, hdiv, hsize]
  rw [if_neg (by omega), if_neg (by omega)]
  cases hq : s.ids.entries id with
  | none => simp [hq]
  | some q => simp [hq]

theorem freeSlot_spec (h : s.Inv) (hid : s.freeSlot = some id) :
    id < 16 ∧ s.ids.entries id = none := by
  have hmem := List.mem_of_find?_eq_some hid
  have hnone := List.find?_some hid
  rw [h.size] at hmem
  exact ⟨List.mem_range.mp hmem, Option.isNone_iff_eq_none.mp hnone⟩

/-- When no two queues were given the same slot and number, identifiers resolve. -/
theorem Inv.resolves (h : s.Inv) (hnodup : s.made.Nodup) : s.Resolves := by
  intro n m hm
  obtain ⟨id, w, hn, rfl⟩ := h.returned n m hm
  have hget := getMsgq_buildin h.size (h.made n id w hn).1 w
  -- the queue can only be in the slot that it was given
  have hslot : ∀ id', s.In n id' → id' = id := by
    rintro id' ⟨hsome, howner⟩
    obtain ⟨q, hq⟩ := Option.isSome_iff_exists.mp hsome
    obtain ⟨w', hw', -⟩ := h.slot id' q hq
    rw [howner, hn] at hw'
    exact (Prod.mk.inj (Option.some.inj hw')).1.symm
  constructor
  · intro id' hin
    obtain rfl := hslot id' hin
    obtain ⟨q, hq⟩ := Option.isSome_iff_exists.mp hin.1
    obtain ⟨w', hw', hseq⟩ := h.slot id' q hq
    rw [hin.2, hn] at hw'
    obtain rfl := (Prod.mk.inj (Option.some.inj hw')).2
    refine ⟨q, ?_, hq⟩
    rw [hget, hq]
    simp only [hseq, ne_eq, not_true_eq_false, if_false]
  · intro hnot
    rw [hget]
    cases hq : s.ids.entries id with
    | none => rfl
    | some q =>
      obtain ⟨w', hw', hseq⟩ := h.slot id q hq
      have hne : (w.toNat : ℤ) ≠ q.seq := by
        rw [hseq]
        intro heq
        have hww : w = w' := BitVec.eq_of_toNat_eq (by exact_mod_cast heq)
        subst hww
        -- the same slot and number: the same queue
        have hsame : s.owner id = n := by
          have hlt : s.owner id < s.made.length := (List.getElem?_eq_some_iff.mp hw').1
          exact (List.getElem?_inj hlt hnodup).mp (hw'.trans hn.symm)
        exact hnot id ⟨by rw [hq]; rfl, hsame⟩
      simp only [hne, ne_eq, not_false_eq_true, if_true]

/-- A call that only returns an error. -/
theorem Inv.ret (h : s.Inv) (ret : ℤ) : Inv { s with ret := ret } :=
  ⟨h.size, h.slot, h.returned, h.made⟩

theorem Inv.addQueue (h : s.Inv) (hid : s.freeSlot = some id) (key : ℤ) :
    (s.addQueue key id).Inv := by
  obtain ⟨hlt, hfree⟩ := freeSlot_spec h hid
  have hnew : (s.made ++ [(id, s.seq)])[s.made.length]? = some (id, s.seq) := by simp
  -- the history goes on at its end
  have hold : ∀ {k : ℕ} {x}, s.made[k]? = some x → (s.made ++ [(id, s.seq)])[k]? = some x := by
    intro k x hk
    have hlen := (List.getElem?_eq_some_iff.mp hk).1
    rw [List.getElem?_append_left hlen]
    exact hk
  refine ⟨h.size, fun id' q hq => ?_, fun n m hm => ?_, fun n id' w hn => ?_⟩
  · by_cases hii : id' = id
    · subst hii
      simp only [MsgIds.addQueue, Function.update_self, Option.some.injEq] at hq ⊢
      exact ⟨s.seq, hnew, hq ▸ rfl⟩
    · simp only [MsgIds.addQueue, Function.update_of_ne hii] at hq ⊢
      obtain ⟨w, hw, hseq⟩ := h.slot id' q hq
      exact ⟨w, hold hw, hseq⟩
  · rcases List.mem_append.mp hm with hm | hm
    · obtain ⟨id', w, hw, hmw⟩ := h.returned n m hm
      exact ⟨id', w, hold hw, hmw⟩
    · obtain ⟨rfl, rfl⟩ := Prod.mk.inj (List.mem_singleton.mp hm)
      exact ⟨id, s.seq, hnew, rfl⟩
  · have hn' : (s.made ++ [(id, s.seq)])[n]? = some (id', w) := hn
    rcases Nat.lt_or_ge n s.made.length with hlen | hlen
    · rw [List.getElem?_append_left hlen] at hn'
      obtain ⟨hlt', hmem⟩ := h.made n id' w hn'
      exact ⟨hlt', List.mem_append_left _ hmem⟩
    · obtain rfl : n = s.made.length := by
        have hsome := (List.getElem?_eq_some_iff.mp hn').1
        simp at hsome
        omega
      rw [hnew] at hn'
      obtain ⟨rfl, rfl⟩ := Prod.mk.inj (Option.some.inj hn')
      exact ⟨hlt, List.mem_append_right _ (List.mem_singleton.mpr rfl)⟩

/-- What `newque` does. -/
theorem newque_cases (s : MsgIds) (key : ℤ) (alloc : Bool) :
    (∃ ret, s.newque key alloc = { s with ret := ret } ∧ (alloc → s.freeSlot = none)) ∨
      ∃ id, alloc ∧ s.freeSlot = some id ∧ s.newque key alloc = s.addQueue key id := by
  unfold newque
  cases alloc with
  | false => exact .inl ⟨_, rfl, fun h => by cases h⟩
  | true =>
    cases hid : s.freeSlot with
    | none => exact .inl ⟨_, rfl, fun _ => rfl⟩
    | some id => exact .inr ⟨id, rfl, rfl, rfl⟩

/-- What `sys_msgget` does: nothing but return, return the identifier of a queue that exists,
or make a new one. -/
theorem msgget_cases (s : MsgIds) (key : ℤ) (msgflg : BitVec 32) (alloc : Bool) :
    (∃ ret, s.msgget key msgflg alloc = { s with ret := ret } ∧
      (s.asksNew key msgflg alloc → s.freeSlot = none)) ∨
    (∃ id q, s.ids.entries id = some q ∧ s.asksNew key msgflg alloc = false ∧
      s.msgget key msgflg alloc = { s with
        returned := s.returned ++ [(s.owner id, ipcBuildin id q.seq)]
        ret := ipcBuildin id q.seq }) ∨
    ∃ id, s.asksNew key msgflg alloc ∧ s.freeSlot = some id ∧
      s.msgget key msgflg alloc = s.addQueue key id := by
  -- both ways into `newque`
  have hnew : (alloc → s.asksNew key msgflg alloc) → s.msgget key msgflg alloc = s.newque key alloc →
      (∃ ret, s.msgget key msgflg alloc = { s with ret := ret } ∧
        (s.asksNew key msgflg alloc → s.freeSlot = none)) ∨
      ∃ id, s.asksNew key msgflg alloc ∧ s.freeSlot = some id ∧
        s.msgget key msgflg alloc = s.addQueue key id := by
    intro hasks heq
    rcases newque_cases s key alloc with ⟨ret, hret, hnone⟩ | ⟨id, halloc, hid, hadd⟩
    · refine .inl ⟨ret, heq.trans hret, fun hask => hnone ?_⟩
      exact (Bool.and_eq_true_iff.mp hask).1
    · exact .inr ⟨id, hasks halloc, hid, heq.trans hadd⟩
  by_cases hkey : key = 0
  · rcases hnew (fun halloc => by simp [asksNew, halloc, hkey]) (if_pos hkey) with hret | hadd
    · exact .inl hret
    · exact .inr (.inr hadd)
  · have heq : s.msgget key msgflg alloc = _ := if_neg hkey
    cases hfind : s.findkey key with
    | none =>
      simp only [hfind] at heq
      cases hcreate : ipcCreate msgflg with
      | true =>
        have hasks : alloc → s.asksNew key msgflg alloc :=
          fun halloc => by simp [asksNew, halloc, hfind, hcreate]
        rcases hnew hasks (heq.trans (if_pos hcreate)) with hret | hadd
        · exact .inl hret
        · exact .inr (.inr hadd)
      | false =>
        refine .inl ⟨errNoent, heq.trans (if_neg (by simp [hcreate])), fun hask => ?_⟩
        simp [asksNew, hkey, hcreate] at hask
    | some id =>
      have hasks : s.asksNew key msgflg alloc = false := by simp [asksNew, hkey, hfind]
      simp only [hfind] at heq
      cases hexcl : ipcExcl msgflg with
      | true => exact .inl ⟨errExist, heq.trans (if_pos hexcl), fun hask => by simp [hasks] at hask⟩
      | false =>
        rw [if_neg (by simp [hexcl])] at heq
        -- the slot that `ipc_findkey` returns is not empty
        have hsome := List.find?_some hfind
        obtain ⟨q, hq⟩ := Option.isSome_iff_exists.mp (Bool.and_eq_true_iff.mp hsome).1
        simp only [hq] at heq
        exact .inr (.inl ⟨id, q, hq, hasks, heq⟩)

theorem freeque_found {q : MsgQueue} (hget : s.ids.getMsgq m = .found id q) :
    s.freeque m = some { s with ids := { s.ids with
      in_use := s.ids.in_use - 1
      entries := Function.update s.ids.entries id none } } := by
  unfold freeque
  rw [hget]

/-- A slot that `get_msgq` finds is the one of the identifier. -/
theorem freeque_cases (hs : s.freeque m = some t) : t = s ∨
    ∃ id, t = { s with ids := { s.ids with
      in_use := s.ids.in_use - 1
      entries := Function.update s.ids.entries id none } } := by
  unfold freeque at hs
  split at hs
  · cases hs
  · cases hs
    exact .inl rfl
  · cases hs
    exact .inr ⟨_, rfl⟩

theorem Inv.step {l : MsgIdsStep} (h : s.Inv) (hs : s.step l = some t) :
    t.Inv ∧ (s.Fresh l → s.made.Nodup → t.made.Nodup) := by
  cases l with
  | msgget key msgflg alloc =>
    cases hs
    rcases msgget_cases s key msgflg alloc with
      ⟨ret, heq, -⟩ | ⟨id, q, hq, -, heq⟩ | ⟨id, hasks, hid, heq⟩
    · rw [heq]
      exact ⟨h.ret ret, fun _ hnodup => hnodup⟩
    · rw [heq]
      refine ⟨⟨h.size, h.slot, fun n m hm => ?_, fun n id' w hn => ?_⟩, fun _ hnodup => hnodup⟩
      · rcases List.mem_append.mp hm with hm | hm
        · exact h.returned n m hm
        · obtain ⟨rfl, rfl⟩ := Prod.mk.inj (List.mem_singleton.mp hm)
          obtain ⟨w, hw, hseq⟩ := h.slot id q hq
          exact ⟨id, w, hw, by rw [hseq]⟩
      · obtain ⟨hlt, hmem⟩ := h.made n id' w hn
        exact ⟨hlt, List.mem_append_left _ hmem⟩
    · rw [heq]
      refine ⟨h.addQueue hid key, fun hfresh hnodup => ?_⟩
      refine List.nodup_append.mpr ⟨hnodup, List.nodup_singleton _, fun a ha b hb hab => ?_⟩
      rw [List.mem_singleton.mp hb] at hab
      exact hfresh hasks id hid (hab ▸ ha)
  | msgctl msgid cmd =>
    simp only [MsgIds.step] at hs
    split at hs
    · obtain ⟨u, hu, rfl⟩ := Option.map_eq_some_iff.mp hs
      rcases freeque_cases hu with rfl | ⟨id, rfl⟩
      · exact ⟨h.ret 0, fun _ hnodup => hnodup⟩
      · refine ⟨⟨h.size, fun id' q hq => ?_, h.returned, h.made⟩, fun _ hnodup => hnodup⟩
        have hq' : Function.update s.ids.entries id none id' = some q := hq
        by_cases hii : id' = id
        · rw [hii, Function.update_self] at hq'
          cases hq'
        · rw [Function.update_of_ne hii] at hq'
          exact h.slot id' q hq'
    · cases hs
      exact ⟨h.ret _, fun _ hnodup => hnodup⟩

theorem inv_init (h : msgIdsSystem.init s) : s.Inv ∧ s.made.Nodup := by
  obtain ⟨hsize, -, hentries, -, hmade, hreturned⟩ := h
  refine ⟨⟨hsize, fun id q hq => ?_, fun n m hm => ?_, fun n id w hn => ?_⟩, ?_⟩
  · rw [hentries id] at hq
    cases hq
  · rw [hreturned] at hm
    cases hm
  · rw [hmade] at hn
    cases hn
  · rw [hmade]
    exact List.nodup_nil

theorem inv_of_reachable {ok : MsgIds → MsgIdsStep → Prop} (h : msgIdsSystem.Reachable ok s) :
    s.Inv :=
  h.induction (I := Inv) (fun _ hs => (inv_init hs).1) fun _ _ _ hinv _ hs => (hinv.step hs).1

/-- The new queue is found under its identifier. -/
theorem getMsgq_addQueue (hsize : s.ids.size = 16) (hid : id < 16) (key : ℤ) :
    (s.addQueue key id).ids.getMsgq (ipcBuildin id s.seq.toNat) =
      .found id (.new s.seq.toNat) := by
  have hentry : (s.addQueue key id).ids.entries id = some (.new s.seq.toNat) :=
    Function.update_self id _ s.ids.entries
  have hget := getMsgq_buildin (s := s.addQueue key id) hsize hid s.seq
  rw [hentry] at hget
  simpa only [MsgQueue.new, ne_eq, not_true_eq_false, if_false] using hget

/-- A queue that gets the slot and the number of an earlier one is found under the identifier
of that one, which does not exist any more. -/
theorem Inv.not_resolves (h : s.Inv) (hid : s.freeSlot = some id) (hmade : (id, s.seq) ∈ s.made)
    (key : ℤ) : ¬(s.addQueue key id).Resolves := by
  intro hres
  obtain ⟨n, hn⟩ := List.mem_iff_getElem?.mp hmade
  have hinv := h.addQueue hid key
  have hlen := (List.getElem?_eq_some_iff.mp hn).1
  have hn' : (s.addQueue key id).made[n]? = some (id, s.seq) := by
    show (s.made ++ [(id, s.seq)])[n]? = _
    rw [List.getElem?_append_left hlen]
    exact hn
  obtain ⟨hlt, hmem⟩ := hinv.made n id s.seq hn'
  -- the earlier queue is in no slot
  have hgone : ∀ id', ¬(s.addQueue key id).In n id' := by
    rintro id' ⟨hsome, howner⟩
    obtain ⟨q, hq⟩ := Option.isSome_iff_exists.mp hsome
    obtain ⟨w, hw, -⟩ := hinv.slot id' q hq
    rw [howner, hn'] at hw
    obtain ⟨rfl, -⟩ := Prod.mk.inj (Option.some.inj hw)
    have hown : (s.addQueue key id).owner id = s.made.length := Function.update_self _ _ _
    rw [hown] at howner
    omega
  have hnull := (hres n _ hmem).2 hgone
  rw [getMsgq_addQueue h.size hlt key] at hnull
  cases hnull

end MsgIds

namespace MsgIds

variable {s t : MsgIds}

theorem made_nodup (h : msgIdsSystem.Reachable Fresh s) : s.Inv ∧ s.made.Nodup :=
  h.induction (I := fun s => s.Inv ∧ s.made.Nodup) (fun _ hs => inv_init hs)
    fun _ _ _ hinv hok hs => ⟨(hinv.1.step hs).1, (hinv.1.step hs).2 hok hinv.2⟩

theorem Inv.not_fresh {l : MsgIdsStep} (h : s.Inv) (hs : s.step l = some t) (hl : ¬s.Fresh l) :
    ¬t.Resolves := by
  cases l with
  | msgget key msgflg alloc =>
    cases hs
    rcases msgget_cases s key msgflg alloc with ⟨-, -, hnone⟩ | ⟨id, q, hq, hasks, -⟩ | ⟨id, -, hid, heq⟩
    · exact absurd (fun hask id hid => by rw [hnone hask] at hid; cases hid) hl
    · exact absurd (fun hask => by rw [hasks] at hask; cases hask) hl
    · rw [heq]
      refine h.not_resolves hid ?_ key
      by_contra hmade
      refine hl fun _ id' hid' => ?_
      obtain rfl := Option.some.inj (hid.symm.trans hid')
      exact hmade
  | msgctl => exact absurd trivial hl

end MsgIds

/-- **Identifiers resolve to their queues**, and to nothing once these have been removed, as
long as every new queue is fresh; the first that is not breaks it. -/
theorem msgget_resolves (s : MsgIds) (h : msgIdsSystem.Reachable MsgIds.Fresh s) :
    s.Resolves ∧ ∀ l t, s.step l = some t → (t.Resolves ↔ s.Fresh l) := by
  obtain ⟨hinv, hnodup⟩ := MsgIds.made_nodup h
  refine ⟨hinv.resolves hnodup, fun l t hs => ⟨fun hres => ?_, fun hl => ?_⟩⟩
  · by_contra hl
    exact hinv.not_fresh hs hl hres
  · obtain ⟨hinv', hnodup'⟩ := hinv.step hs
    exact hinv'.resolves (hnodup' hl hnodup)

/-- After `init_ipc`. -/
def MsgIds.boot : MsgIds where
  ids := ⟨16, 0, fun _ => none⟩
  seq := 0
  key _ := 0
  owner _ := 0
  made := []
  returned := []
  ret := 0

theorem MsgIds.init_boot : msgIdsSystem.init .boot :=
  ⟨rfl, rfl, fun _ => rfl, rfl, rfl, rfl⟩

/-- One queue has been removed, and the next one takes its slot. -/
theorem msgget_resolves_two : ∃ s : MsgIds, s.made = [(0, 0), (1, 1), (0, 2)] ∧
    s.returned = [(0, 0), (1, 17), (1, 17), (2, 32)] ∧ s.Resolves := by
  have hrun : (msgIdsSystem.exec MsgIds.Fresh .boot
      [.msgget 0 0 true, .msgget 5 2 true, .msgctl 0 0, .msgget 5 2 true,
        .msgget 0 0 true]).map (fun s => (s.made, s.returned)) =
      some ([(0, 0), (1, 1), (0, 2)], [(0, 0), (1, 17), (1, 17), (2, 32)]) := by
    decide
  obtain ⟨s, hs, heq⟩ := Option.map_eq_some_iff.mp hrun
  obtain ⟨hmade, hreturned⟩ := Prod.mk.inj heq
  exact ⟨s, hmade, hreturned,
    (msgget_resolves s ⟨_, MsgIds.init_boot, System.leads_of_exec hs⟩).1⟩

namespace MsgIds

/-- The table after `n` queues that were created and removed one by one. -/
structure Round (n : ℕ) (s : MsgIds) : Prop where
  size : s.ids.size = 16
  empty : ∀ id, s.ids.entries id = none
  seq : s.seq = BitVec.ofNat 16 n
  made : 0 < n → (0, 0) ∈ s.made

theorem Round.freeSlot {n : ℕ} {s : MsgIds} (h : Round n s) : s.freeSlot = some 0 := by
  unfold MsgIds.freeSlot
  rw [h.size]
  show List.find? _ (0 :: (List.range' 1 15)) = some 0
  rw [List.find?_cons_of_pos]
  rw [h.empty 0]
  rfl

theorem Round.create {n : ℕ} {s : MsgIds} (h : Round n s) :
    msgIdsSystem.step s (.msgget 0 0 true) = some (s.addQueue 0 0) := by
  show some (s.newque 0 true) = _
  unfold newque
  rw [h.freeSlot]
  rfl

/-- A private queue is created and removed. -/
theorem Round.next {n : ℕ} {s : MsgIds} (h : Round n s) :
    ∃ t, msgIdsSystem.Leads (fun _ _ => True) s t ∧ Round (n + 1) t := by
  have hremove := getMsgq_addQueue h.size (by decide : 0 < 16) 0
  have hstep : ∃ t, msgIdsSystem.step (s.addQueue 0 0) (.msgctl (ipcBuildin 0 s.seq.toNat) 0) = some t ∧
      t.ids.size = 16 ∧ (∀ id, t.ids.entries id = none) ∧ t.seq = s.seq + 1 ∧
      t.made = s.made ++ [(0, s.seq)] := by
    refine ⟨_, congrArg (Option.map _) (freeque_found hremove), h.size, fun id => ?_, rfl, rfl⟩
    show Function.update (Function.update s.ids.entries 0 _) 0 none id = none
    rw [Function.update_idem]
    rcases Nat.eq_zero_or_pos id with rfl | hpos
    · exact Function.update_self _ _ _
    · rw [Function.update_of_ne (Nat.ne_of_gt hpos)]
      exact h.empty id
  obtain ⟨t, hstep, hsize, hempty, hseq, hmade⟩ := hstep
  refine ⟨t, ((System.Leads.refl s).tail trivial h.create).tail trivial hstep,
    hsize, hempty, ?_, fun _ => ?_⟩
  · rw [hseq, h.seq]
    exact (BitVec.ofNat_add n 1).symm
  · rw [hmade]
    rcases Nat.eq_zero_or_pos n with rfl | hpos
    · rw [h.seq]
      exact List.mem_append_right _ (List.mem_singleton.mpr rfl)
    · exact List.mem_append_left _ (h.made hpos)

theorem round_reachable (n : ℕ) : ∃ s, msgIdsSystem.Reachable (fun _ _ => True) s ∧ Round n s := by
  induction n with
  | zero => exact ⟨boot, .of_init init_boot, rfl, fun _ => rfl, rfl, nofun⟩
  | succ n ih =>
    obtain ⟨s, hs, hround⟩ := ih
    obtain ⟨t, hst, hround'⟩ := hround.next
    exact ⟨t, hs.leads hst, hround'⟩

end MsgIds

/-- **`msg_ids.seq` comes round**: after 65536 queues the next one gets the identifier of the
first, which has been removed. -/
theorem msgget_stale : ∃ s : MsgIds, msgIdsSystem.Reachable (fun _ _ => True) s ∧
    ¬s.Resolves := by
  obtain ⟨s, hs, hround⟩ := MsgIds.round_reachable 65536
  have hseq : s.seq = 0 := hround.seq
  refine ⟨_, hs.step trivial hround.create, ?_⟩
  refine (MsgIds.inv_of_reachable hs).not_resolves hround.freeSlot ?_ 0
  rw [hseq]
  exact hround.made (by decide)

end OsLab
