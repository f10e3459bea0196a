/-
The inodes in memory and their references (`inode_get`, `inode_share` and `inode_put` of
`fs/inode.c`).

The inodes are nodes of a circular list at `head`.  `inode_get` takes the one with the number, if
there is one, even when nobody refers to it, and `inode_put` takes an inode without links off the
list with its last reference.  Each call is one step, since it keeps `lock` from its beginning to
its end; the links in `entry` may change between the calls.

* `refsSystem` — the calls, with the references that have been handed out and not been put;
* `RefsState.One` — one inode for each number, counted right, to which all references point;
* `inodeRefs_one` — so it is in every run in which a client puts only what it has been given, and
  an inode is freed only with the last reference.
-/
import OsLab.Lib.RingList
import OsLab.Lib.System
import Mathlib.Data.List.Count
import Mathlib.Data.List.Find

namespace OsLab

/-- `Inode`, as far as these calls go: its number, `rc.count` and `entry.num_links`. -/
structure MemInode where
  inode_no : ℕ
  rc : ℕ
  num_links : ℕ

/-- A pointer that a client was given, and the number it had asked for. -/
structure InodeRef where
  client : ℕ
  inode_no : ℕ
  ptr : ℕ
  deriving DecidableEq

/-- The list, with `head` at 0 and an inode at each other address; `allocated` has the inodes that
`kalloc` has made room for, and `refs` the references that have been handed out. -/
structure RefsState where
  links : Links ℕ
  mem : ℕ → MemInode
  allocated : List ℕ
  refs : List InodeRef

inductive RefsStep
  /-- `p` and `garbage` are what `kalloc` returns if it is called, and finds in `num_links` -/
  | get (client inode_no p garbage : ℕ)
  /-- another reference, for `client`, to what `r` points to -/
  | share (client : ℕ) (r : InodeRef)
  | put (r : InodeRef)
  /-- the entry of an inode in memory changes -/
  | entry (p num_links : ℕ)

namespace RefsState

/-- The inode in memory with the number, in the order of the list. -/
def find (s : RefsState) (no : ℕ) : Option (Option ℕ) :=
  (s.links.walk 0 (s.allocated.length + 1) (s.links.next 0)).map
    (List.find? fun p => p ≠ 0 && (s.mem p).inode_no = no)

/-- `_increment_rc`, `_decrement_rc` -/
def setRc (s : RefsState) (p rc : ℕ) : RefsState :=
  { s with mem := Function.update s.mem p { s.mem p with rc := rc } }

/-- `inode_get`; `none` when an assertion fails. -/
def get (s : RefsState) (numInodes client no p garbage : ℕ) : Option RefsState :=
  if no = 0 ∨ numInodes ≤ no then none
  else (s.find no).bind fun
    | some q => some { s.setRc q ((s.mem q).rc + 1) with refs := ⟨client, no, q⟩ :: s.refs }
    | none =>
      if p = 0 ∨ p ∈ s.allocated then none
      else some {
        links := s.links.insert 0 p
        mem := Function.update s.mem p ⟨no, 1, garbage⟩
        allocated := p :: s.allocated
        refs := ⟨client, no, p⟩ :: s.refs }

/-- `inode_put` of a reference; the blocks that it frees are not modelled here.  Its `int r` is
`rc.count` as it is, for counts below 2^31. -/
def put (s : RefsState) (r : InodeRef) : RefsState :=
  let inode := s.mem r.ptr
  if inode.num_links = 0 ∧ inode.rc = 1 then
    { s with
      links := (s.links.detach r.ptr).2
      allocated := s.allocated.erase r.ptr
      refs := s.refs.erase r }
  else { s.setRc r.ptr (inode.rc - 1) with refs := s.refs.erase r }

def step (numInodes : ℕ) (s : RefsState) : RefsStep → Option RefsState
  | .get client no p garbage => s.get numInodes client no p garbage
  | .share client r =>
    if r ∈ s.refs then some { s.setRc r.ptr ((s.mem r.ptr).rc + 1) with
      refs := ⟨client, r.inode_no, r.ptr⟩ :: s.refs }
    else none
  | .put r => if r ∈ s.refs then some (s.put r) else none
  | .entry p num_links =>
    if p ∈ s.allocated then
      some { s with mem := Function.update s.mem p { s.mem p with num_links := num_links } }
    else none

end RefsState

/-- The list is empty at first. -/
def refsSystem (numInodes : ℕ) : System RefsState RefsStep where
  init s := s.links.Ring 0 [] ∧ s.allocated = [] ∧ s.refs = []
  step := RefsState.step numInodes

namespace RefsState

/-- How many references point to an inode. -/
def refsTo (s : RefsState) (p : ℕ) : ℕ := s.refs.countP fun r => r.ptr = p

/-- The inodes on the list are `xs`; there is one for each number, with the right count. -/
structure One (s : RefsState) (xs : List ℕ) : Prop where
  ring : s.links.Ring 0 xs
  allocated : s.allocated.Perm xs
  /-- at most one inode has a number -/
  once : ∀ p ∈ xs, ∀ q ∈ xs, (s.mem p).inode_no = (s.mem q).inode_no → p = q
  count : ∀ p ∈ xs, (s.mem p).rc = s.refsTo p
  /-- a reference points to the inode of the list with the number that was asked for -/
  refs : ∀ r ∈ s.refs, r.ptr ∈ xs ∧ (s.mem r.ptr).inode_no = r.inode_no

variable {s t : RefsState} {xs front back : List ℕ} {r : InodeRef} {no p q n : ℕ}

@[simp] theorem setRc_number (rc : ℕ) :
    ((s.setRc p rc).mem q).inode_no = (s.mem q).inode_no := by
  by_cases hq : q = p
  · subst hq
    show (Function.update s.mem q { s.mem q with rc := rc } q).inode_no = _
    rw [Function.update_self]
  · exact congrArg MemInode.inode_no (Function.update_of_ne hq _ _)

theorem setRc_rc (rc : ℕ) :
    ((s.setRc p rc).mem q).rc = if q = p then rc else (s.mem q).rc := by
  by_cases hq : q = p
  · subst hq
    show (Function.update s.mem q { s.mem q with rc := rc } q).rc = _
    rw [Function.update_self, if_pos rfl]
  · rw [if_neg hq]
    exact congrArg MemInode.rc (Function.update_of_ne hq _ _)

/-- The search comes to all inodes of the list. -/
theorem One.find_eq (h : s.One xs) (no : ℕ) :
    s.find no = some (xs.find? fun p => (s.mem p).inode_no = no) := by
  have hwalk := h.ring.walk (Nat.lt_succ_of_le (Nat.le_of_eq h.allocated.length_eq.symm))
  have hzero : 0 ∉ xs := (List.nodup_cons.mp h.ring.nodup).1
  rw [find, hwalk, Option.map_some, List.find?_append]
  have hlast : ([0] : List ℕ).find? (fun p => p ≠ 0 && (s.mem p).inode_no = no) = none := by simp
  rw [hlast, Option.or_none]
  congr 1
  refine List.find?_congr fun p hp => ?_
  have hne : p ≠ 0 := fun h0 => hzero (h0 ▸ hp)
  simp [hne]

/-- One more reference, to an inode of the list. -/
theorem One.share (h : s.One xs) (hq : q ∈ xs) (hno : (s.mem q).inode_no = no) (client : ℕ) :
    One { s.setRc q ((s.mem q).rc + 1) with refs := ⟨client, no, q⟩ :: s.refs } xs := by
  refine ⟨h.ring, h.allocated, fun p hp p' hp' heq => ?_, fun p hp => ?_, fun r hr => ?_⟩
  · have heq' : ((s.setRc q _).mem p).inode_no = ((s.setRc q _).mem p').inode_no := heq
    rw [setRc_number, setRc_number] at heq'
    exact h.once p hp p' hp' heq'
  · show ((s.setRc q _).mem p).rc = (⟨client, no, q⟩ :: s.refs).countP fun r => r.ptr = p
    rw [List.countP_cons, setRc_rc, h.count q hq]
    by_cases hpq : p = q
    · rw [if_pos hpq, if_pos (by simpa using hpq.symm), hpq]
      rfl
    · rw [if_neg hpq, if_neg (by simpa using Ne.symm hpq), h.count p hp]
      rfl
  · show r.ptr ∈ xs ∧ ((s.setRc q _).mem r.ptr).inode_no = r.inode_no
    rw [setRc_number]
    rcases List.mem_cons.mp hr with rfl | hr
    · exact ⟨hq, hno⟩
    · exact h.refs r hr

/-- A new inode, for a number that none has. -/
theorem One.new (h : s.One xs) (hp0 : p ≠ 0) (hp : p ∉ xs)
    (hno : ∀ q ∈ xs, (s.mem q).inode_no ≠ no) (client garbage : ℕ) :
    One {
      links := s.links.insert 0 p
      mem := Function.update s.mem p ⟨no, 1, garbage⟩
      allocated := p :: s.allocated
      refs := ⟨client, no, p⟩ :: s.refs } (p :: xs) := by
  have hold : ∀ q ∈ xs, Function.update s.mem p ⟨no, 1, garbage⟩ q = s.mem q := by
    intro q hq
    have hne : q ≠ p := by
      rintro rfl
      exact hp hq
    exact Function.update_of_ne hne _ _
  have hnew : Function.update s.mem p ⟨no, 1, garbage⟩ p = ⟨no, 1, garbage⟩ :=
    Function.update_self _ _ _
  refine ⟨h.ring.insert (by simp [hp0, hp]), h.allocated.cons p, fun a ha b hb heq => ?_,
    fun a ha => ?_, fun r hr => ?_⟩
  · dsimp only at heq
    rcases List.mem_cons.mp ha with hap | ha'
    · rcases List.mem_cons.mp hb with hbp | hb'
      · exact hap.trans hbp.symm
      · rw [hap, hnew, hold b hb'] at heq
        exact absurd heq.symm (hno b hb')
    · rcases List.mem_cons.mp hb with hbp | hb'
      · rw [hbp, hnew, hold a ha'] at heq
        exact absurd heq (hno a ha')
      · rw [hold a ha', hold b hb'] at heq
        exact h.once a ha' b hb' heq
  · show (Function.update s.mem p _ a).rc = (⟨client, no, p⟩ :: s.refs).countP fun r => r.ptr = a
    rw [List.countP_cons]
    rcases List.mem_cons.mp ha with rfl | ha
    · -- nobody has referred to it before
      have hzero : (s.refs.countP fun r => r.ptr = a) = 0 := by
        refine List.countP_eq_zero.mpr fun r hr heq => hp ?_
        rw [← of_decide_eq_true heq]
        exact (h.refs r hr).1
      rw [hnew, hzero, if_pos (by simp)]
    · have hne : ¬p = a := fun heq => hp (heq ▸ ha)
      rw [hold a ha, h.count a ha, if_neg (by simpa using hne)]
      rfl
  · dsimp only
    rcases List.mem_cons.mp hr with rfl | hr
    · exact ⟨List.mem_cons_self, congrArg MemInode.inode_no hnew⟩
    · obtain ⟨hmem, heq⟩ := h.refs r hr
      rw [hold r.ptr hmem]
      exact ⟨List.mem_cons_of_mem p hmem, heq⟩

/-- How many references are left after one has been put. -/
theorem refsTo_erase (hr : r ∈ s.refs) (p : ℕ) :
    ((s.refs.erase r).countP fun r => r.ptr = p) = s.refsTo p - if r.ptr = p then 1 else 0 := by
  rw [List.countP_erase, refsTo]
  simp [hr]

/-- A reference is dropped. -/
theorem One.drop (h : s.One xs) (hr : r ∈ s.refs) :
    One { s.setRc r.ptr ((s.mem r.ptr).rc - 1) with refs := s.refs.erase r } xs := by
  refine ⟨h.ring, h.allocated, fun p hp p' hp' heq => ?_, fun p hp => ?_, fun x hx => ?_⟩
  · have heq' : ((s.setRc r.ptr _).mem p).inode_no = ((s.setRc r.ptr _).mem p').inode_no := heq
    rw [setRc_number, setRc_number] at heq'
    exact h.once p hp p' hp' heq'
  · show ((s.setRc r.ptr _).mem p).rc = (s.refs.erase r).countP fun r => r.ptr = p
    rw [refsTo_erase hr, setRc_rc, ← h.count p hp]
    by_cases hp' : p = r.ptr
    · rw [if_pos hp', if_pos hp'.symm, hp']
    · rw [if_neg hp', if_neg (Ne.symm hp'), Nat.sub_zero]
  · show x.ptr ∈ xs ∧ ((s.setRc r.ptr _).mem x.ptr).inode_no = x.inode_no
    rw [setRc_number]
    exact h.refs x (List.mem_of_mem_erase hx)

/-- The last reference to an inode is put, and the inode is freed. -/
theorem One.free (h : s.One (front ++ r.ptr :: back)) (hr : r ∈ s.refs)
    (hlast : (s.mem r.ptr).rc = 1) :
    One { s with
      links := (s.links.detach r.ptr).2
      allocated := s.allocated.erase r.ptr
      refs := s.refs.erase r } (front ++ back) := by
  have hsub : ∀ p ∈ front ++ back, p ∈ front ++ r.ptr :: back := by
    intro p hp
    rcases List.mem_append.mp hp with hp | hp
    · exact List.mem_append_left _ hp
    · exact List.mem_append_right _ (List.mem_cons_of_mem _ hp)
  have hperm : (front ++ r.ptr :: back).Perm (r.ptr :: (front ++ back)) := List.perm_middle
  have hmem : r.ptr ∈ front ++ r.ptr :: back := hperm.mem_iff.mpr List.mem_cons_self
  have hnodup := hperm.nodup (List.nodup_cons.mp h.ring.nodup).2
  have hnone : ∀ x ∈ s.refs.erase r, x.ptr ≠ r.ptr := by
    have hcount := refsTo_erase hr r.ptr
    rw [if_pos rfl, ← h.count r.ptr hmem, hlast] at hcount
    intro x hx heq
    exact List.countP_eq_zero.mp hcount x hx (decide_eq_true heq)
  refine ⟨h.ring.detach, ?_, fun p hp q hq heq => h.once p (hsub p hp) q (hsub q hq) heq,
    fun p hp => ?_, fun x hx => ?_⟩
  · have herase := (h.allocated.trans hperm).erase r.ptr
    rwa [List.erase_cons_head] at herase
  · have hne : r.ptr ≠ p := fun heq => (List.nodup_cons.mp hnodup).1 (heq ▸ hp)
    show (s.mem p).rc = (s.refs.erase r).countP fun r => r.ptr = p
    rw [refsTo_erase hr, if_neg hne, Nat.sub_zero]
    exact h.count p (hsub p hp)
  · obtain ⟨hx', heq⟩ := h.refs x (List.mem_of_mem_erase hx)
    refine ⟨?_, heq⟩
    exact (List.mem_cons.mp (hperm.mem_iff.mp hx')).resolve_left (hnone x hx)

/-- The entry of an inode changes. -/
theorem One.entry (h : s.One xs) (p num_links : ℕ) :
    One { s with mem := Function.update s.mem p { s.mem p with num_links := num_links } } xs := by
  have hsame : ∀ q, (Function.update s.mem p { s.mem p with num_links := num_links } q).inode_no
      = (s.mem q).inode_no ∧
      (Function.update s.mem p { s.mem p with num_links := num_links } q).rc = (s.mem q).rc := by
    intro q
    by_cases hq : q = p
    · rw [hq, Function.update_self]
      exact ⟨rfl, rfl⟩
    · rw [Function.update_of_ne hq]
      exact ⟨rfl, rfl⟩
  refine ⟨h.ring, h.allocated, fun a ha b hb heq => ?_, fun a ha => ?_, fun r hr => ?_⟩
  · dsimp only at heq
    rw [(hsame a).1, (hsame b).1] at heq
    exact h.once a ha b hb heq
  · exact (hsame a).2.trans (h.count a ha)
  · dsimp only
    rw [(hsame r.ptr).1]
    exact h.refs r hr

/-- **One step** keeps the inodes as they are to be. -/
theorem One.step {numInodes : ℕ} {l : RefsStep} (h : s.One xs) (hs : s.step numInodes l = some t) :
    ∃ ys, t.One ys := by
  cases l with
  | get client no p garbage =>
    simp only [RefsState.step, RefsState.get] at hs
    split at hs
    · cases hs
    · rw [h.find_eq, Option.bind_some] at hs
      split at hs
      · rename_i q hq
        cases hs
        have hno : (s.mem q).inode_no = no := by simpa using List.find?_some hq
        exact ⟨xs, h.share (List.mem_of_find?_eq_some hq) hno client⟩
      · rename_i hnone
        split at hs
        · cases hs
        · rename_i hp
          cases hs
          obtain ⟨hp0, hfresh⟩ := not_or.mp hp
          have hother : ∀ q ∈ xs, (s.mem q).inode_no ≠ no := fun q hq => by
            simpa using List.find?_eq_none.mp hnone q hq
          exact ⟨p :: xs, h.new hp0 (fun hmem => hfresh (h.allocated.mem_iff.mpr hmem)) hother
            client garbage⟩
  | share client r =>
    simp only [RefsState.step] at hs
    split at hs
    · rename_i hr
      cases hs
      exact ⟨xs, h.share (h.refs r hr).1 (h.refs r hr).2 client⟩
    · cases hs
  | put r =>
    simp only [RefsState.step] at hs
    split at hs
    · rename_i hr
      cases hs
      unfold RefsState.put
      dsimp only
      split
      · rename_i hlast
        obtain ⟨front, back, rfl⟩ := List.append_of_mem (h.refs r hr).1
        exact ⟨front ++ back, h.free hr hlast.2⟩
      · exact ⟨xs, h.drop hr⟩
    · cases hs
  | entry p num_links =>
    simp only [RefsState.step] at hs
    split at hs
    · cases hs
      exact ⟨xs, h.entry p num_links⟩
    · cases hs

/-- An inode is freed only by the put of the last reference to it. -/
theorem One.freed {numInodes : ℕ} {l : RefsStep} (h : s.One xs)
    (hs : s.step numInodes l = some t) (hp : p ∈ s.allocated) (hgone : p ∉ t.allocated) :
    (∃ r ∈ s.refs, l = .put r ∧ r.ptr = p) ∧ s.refsTo p = 1 ∧ t.refsTo p = 0 := by
  cases l with
  | get client no q garbage =>
    simp only [RefsState.step, RefsState.get] at hs
    split at hs
    · cases hs
    · rw [h.find_eq, Option.bind_some] at hs
      split at hs
      · cases hs
        exact absurd hp hgone
      · split at hs
        · cases hs
        · cases hs
          exact absurd (List.mem_cons_of_mem q hp) hgone
  | share client r =>
    simp only [RefsState.step] at hs
    split at hs
    · cases hs
      exact absurd hp hgone
    · cases hs
  | put r =>
    simp only [RefsState.step] at hs
    split at hs
    · rename_i hr
      cases hs
      unfold RefsState.put at hgone ⊢
      dsimp only at hgone ⊢
      split at hgone
      · rename_i hlast
        have hpr : r.ptr = p := by
          by_contra hne
          exact hgone ((List.mem_erase_of_ne (Ne.symm hne)).mpr hp)
        subst hpr
        rw [if_pos hlast]
        have hone : s.refsTo r.ptr = 1 := by
          rw [← h.count r.ptr (h.refs r hr).1]
          exact hlast.2
        refine ⟨⟨r, hr, rfl, rfl⟩, hone, ?_⟩
        have hleft := refsTo_erase hr r.ptr
        rw [if_pos rfl, hone] at hleft
        exact hleft
      · exact absurd hp hgone
    · cases hs
  | entry q num_links =>
    simp only [RefsState.step] at hs
    split at hs
    · cases hs
      exact absurd hp hgone
    · cases hs

theorem one_of_reachable {numInodes : ℕ}
    (h : (refsSystem numInodes).Reachable (fun _ _ => True) s) : ∃ xs, s.One xs := by
  refine System.Reachable.induction (I := fun s => ∃ xs, s.One xs) ?_ ?_ h
  · rintro s ⟨hring, halloc, hrefs⟩
    refine ⟨[], hring, ?_, List.forall_mem_nil _, List.forall_mem_nil _, ?_⟩
    · rw [halloc]
    · rw [hrefs]
      exact List.forall_mem_nil _
  · rintro s l t ⟨xs, hxs⟩ _ hs
    exact hxs.step hs

end RefsState

/-- **One inode for each number**: in every run of the calls by any clients, there is at most one
inode in memory for a number, its count is that of the references handed out and not put, all
references to the number point to it, and it is freed only with the last of them. -/
theorem inodeRefs_one (numInodes : ℕ) (s : RefsState)
    (h : (refsSystem numInodes).Reachable (fun _ _ => True) s) :
    (∃ xs, s.One xs) ∧
    (∀ r ∈ s.refs, ∀ r' ∈ s.refs, r.inode_no = r'.inode_no → r.ptr = r'.ptr) ∧
    ∀ l t, (refsSystem numInodes).step s l = some t → ∀ p ∈ s.allocated, p ∉ t.allocated →
      (∃ r ∈ s.refs, l = .put r ∧ r.ptr = p) ∧ s.refsTo p = 1 ∧ t.refsTo p = 0 := by
  obtain ⟨xs, hxs⟩ := RefsState.one_of_reachable h
  refine ⟨⟨xs, hxs⟩, fun r hr r' hr' heq => ?_, fun l t hs p hp hgone => hxs.freed hs hp hgone⟩
  obtain ⟨hmem, hno⟩ := hxs.refs r hr
  obtain ⟨hmem', hno'⟩ := hxs.refs r' hr'
  exact hxs.once r.ptr hmem r'.ptr hmem' ((hno.trans heq).trans hno'.symm)

/-- An inode is got, put, got again by another client, shared, and put twice. -/
theorem inodeRefs_one_two : ∃ s : RefsState, s.refs = [⟨1, 5, 9⟩] ∧ s.allocated = [9] ∧
    (∃ xs, s.One xs) ∧
    ∀ l t, (refsSystem 8).step s l = some t → ∀ p ∈ s.allocated, p ∉ t.allocated →
      (∃ r ∈ s.refs, l = .put r ∧ r.ptr = p) ∧ s.refsTo p = 1 ∧ t.refsTo p = 0 := by
  let start : RefsState := ⟨(Links.mk id id).init 0, fun _ => ⟨0, 0, 0⟩, [], []⟩
  have hrun : ((refsSystem 8).exec (fun _ _ => True) start
      [.get 0 5 9 1, .put ⟨0, 5, 9⟩, .get 1 5 3 0, .entry 9 0, .share 2 ⟨1, 5, 9⟩,
        .put ⟨2, 5, 9⟩]).map (fun s => (s.refs, s.allocated)) = some ([⟨1, 5, 9⟩], [9]) := by
    decide
  obtain ⟨s, hs, heq⟩ := Option.map_eq_some_iff.mp hrun
  obtain ⟨hrefs, halloc⟩ := Prod.mk.inj heq
  have hone := inodeRefs_one 8 s ⟨start, ⟨Links.Ring.init 0, rfl, rfl⟩, System.leads_of_exec hs⟩
  exact ⟨s, hrefs, halloc, hone.1, hone.2.2⟩

end OsLab
