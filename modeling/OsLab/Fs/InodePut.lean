/-
What `inode_put` does to the disk (`inode_get`, `inode_share`, `inode_lock`, `inode_unlock` and
`inode_put` of `fs/inode.c`).

`inode_get` does not load the entry, and `inode_put` decides by the entry in memory: that of an
inode which has not been locked is what `kalloc` has found in the memory.

* `putSystem` — the five calls over a block cache that behaves as a map;
* `PutsInode` — what a call of `inode_put` is to do;
* `EntryKnown` — the entry in memory says the same about links and blocks as that on the disk;
  `entryKnown_of_valid` — it does after the inode has been loaded;
* `put_changes` — in the runs in which this is so at each put of a last reference, every put
  does what it is to do.
-/
import OsLab.Fs.Bitmap

namespace OsLab

/-- The block cache, the inodes in memory, and the values of their sleep locks. -/
structure PutState (σ : Type) where
  store : σ
  inodes : ℕ → Option Inode
  lock : ℕ → ℤ

/-- The calls. -/
inductive PutCall
  /-- `garbage` is what `kalloc` finds in the memory of a new `entry` -/
  | get (i : ℕ) (garbage : InodeEntry)
  | share (i : ℕ)
  | lock (i : ℕ)
  | unlock (i : ℕ)
  | put (ctx : Option ℕ) (i : ℕ)

section Calls

variable {σ : Type} (sb : SuperBlock) (cache : BlockCache (StateT σ (Except Fault)))

/-- Inode `i` in memory changes. -/
def PutState.setInode (s : PutState σ) (i : ℕ) (inode : Option Inode) : PutState σ :=
  { s with inodes := Function.update s.inodes i inode }

/-- A call of a process that has a reference, but for `inode_get`; `none` when an assertion fails
or the lock is not free. -/
def putStep (s : PutState σ) : PutCall → Option (PutState σ)
  | .get i garbage =>
    if i = 0 ∨ sb.numInodes ≤ i then none
    else match s.inodes i with
      | some inode => some (s.setInode i (some { inode with rc := inode.rc + 1 }))
      | none => some { s.setInode i (some ⟨1, i, false, garbage⟩) with
          lock := Function.update s.lock i 1 }
  | .share i => (s.inodes i).bind fun inode =>
    if inode.rc = 0 then none
    else some (s.setInode i (some { inode with rc := inode.rc + 1 }))
  | .lock i => (s.inodes i).bind fun inode =>
    if s.lock i ≤ 0 then none
    else match (inodeLock sb cache inode).run s.store with
      | .ok (inode, store) => some { s.setInode i (some inode) with
          store := store
          lock := Function.update s.lock i (s.lock i - 1) }
      | .error _ => none
  | .unlock i => (s.inodes i).bind fun inode =>
    if inode.rc = 0 then none
    else some { s with lock := Function.update s.lock i (s.lock i + 1) }
  | .put ctx i => (s.inodes i).bind fun inode =>
    if inode.rc = 0 then none
    else match (inodePut sb cache ctx inode).run s.store with
      | .ok (inode, store) => some { s.setInode i inode with store := store }
      | .error _ => none

end Calls

/-- The entries on the disk, for the numbers that `inode_get` accepts. -/
def diskEntries (sb : SuperBlock) (v : ℕ → BlockData) (i : ℕ) : InodeEntry :=
  if 0 < i ∧ i < sb.numInodes then diskEntry sb v i else .zero

/-- The two entries agree on whether there are links and, when there are none, on the blocks. -/
def SameBlocks (e d : InodeEntry) : Prop :=
  (e.numLinks = 0 ↔ d.numLinks = 0) ∧
    (d.numLinks = 0 → e.addrs = d.addrs ∧ e.indirect = d.indirect)

instance (e d : InodeEntry) : Decidable (SameBlocks e d) := inferInstanceAs (Decidable (_ ∧ _))

section System

variable {sb : SuperBlock} {σ : Type} (M : MapCache sb σ)

/-- No block is held, no inode is in memory, and the blocks in use are those of the inodes on the
disk, which share none. -/
def putSystem : System (PutState σ) PutCall where
  init s := M.Ok s.store ∧ (M.abs s.store).held = ∅ ∧ (∀ i, s.inodes i = none) ∧
    Owns (slots (diskEntries sb (M.abs s.store).view) (M.abs s.store).view) (M.abs s.store).used
  step := putStep sb M.cache

/-- The entry of inode `i` on the disk. -/
def PutState.onDisk (s : PutState σ) (i : ℕ) : InodeEntry := diskEntry sb (M.abs s.store).view i

/-- A put of a last reference finds an entry in memory that agrees with the one on the disk. -/
def EntryKnown (s : PutState σ) : PutCall → Prop
  | .put _ i => ∀ inode, s.inodes i = some inode → inode.rc = 1 →
      SameBlocks inode.entry (s.onDisk M i)
  | _ => True

instance (s : PutState σ) : (l : PutCall) → Decidable (EntryKnown M s l)
  | .put _ i => inferInstanceAs (Decidable (∀ inode ∈ s.inodes i, inode.rc = 1 →
      SameBlocks inode.entry (s.onDisk M i)))
  | .get _ _ | .share _ | .lock _ | .unlock _ => inferInstanceAs (Decidable True)

/-- Inode `i` is freed, with its blocks and with nothing else. -/
structure FreesInode (s t : PutState σ) (i : ℕ) : Prop where
  gone : t.inodes i = none
  invalid : (t.onDisk M i).type = inodeInvalid
  empty : ∀ k, blockOf (t.onDisk M i) (M.abs t.store).view k = 0
  used : ∀ n, n ∈ (M.abs t.store).used ↔ n ∈ (M.abs s.store).used ∧
    ∀ k, blockOf (s.onDisk M i) (M.abs s.store).view k ≠ n
  others : ∀ j, 0 < j → j < sb.numInodes → j ≠ i → t.onDisk M j = s.onDisk M j ∧
    Undisturbed (M.abs s.store).view (M.abs t.store).view (s.onDisk M j)

/-- A put of inode `i`, which is `inode` in memory, from `s` to `t`. -/
structure PutsInode (s t : PutState σ) (i : ℕ) (inode : Inode) : Prop where
  last : inode.rc = 1 → (s.onDisk M i).numLinks = 0 → FreesInode M s t i
  /-- else only the reference is dropped -/
  other : ¬(inode.rc = 1 ∧ (s.onDisk M i).numLinks = 0) →
    t.inodes i = some { inode with rc := inode.rc - 1 } ∧ t.store = s.store

end System

section Facts

variable {sb : SuperBlock} {A B : MapState} {ents : ℕ → InodeEntry} {e d : InodeEntry} {i : ℕ}

/-- Entries with the same direct addresses and indirect block have the same blocks. -/
theorem blockOf_same (haddrs : e.addrs = d.addrs) (hind : e.indirect = d.indirect)
    (v : ℕ → BlockData) (k : ℕ) : blockOf e v k = blockOf d v k := by
  unfold blockOf InodeEntry.addr
  rw [haddrs, hind]

/-- When the blocks of inode `i` are gone and the others are undisturbed, those are freed. -/
theorem used_of_cleared (hA : Owns (slots ents A.view) A.used)
    (hB : Owns (slots (Function.update ents i e) B.view) B.used)
    (hclear : ∀ k, blockOf e B.view k = 0)
    (hothers : ∀ j, j ≠ i → Undisturbed A.view B.view (ents j)) (n : ℕ) :
    n ∈ B.used ↔ n ∈ A.used ∧ ∀ k, blockOf (ents i) A.view k ≠ n := by
  rw [hA.mem, hB.mem]
  constructor
  · rintro ⟨hn, ⟨j, k⟩, hslot⟩
    rw [slots] at hslot
    dsimp only at hslot
    by_cases hj : j = i
    · rw [hj, Function.update_self, hclear] at hslot
      exact absurd hslot.symm hn
    · rw [Function.update_of_ne hj, (hothers j hj k).1] at hslot
      refine ⟨⟨hn, ⟨j, k⟩, hslot⟩, fun l hl => ?_⟩
      have heq := hA.inj (j, k) (i, l) (by rw [slots, hslot]; exact hn) (hslot.trans hl.symm)
      exact hj (Prod.mk.inj heq).1
  · rintro ⟨⟨hn, ⟨j, k⟩, hslot⟩, hnot⟩
    have hj : j ≠ i := by
      rintro rfl
      exact hnot k hslot
    refine ⟨hn, ⟨j, k⟩, ?_⟩
    rw [slots] at hslot ⊢
    dsimp only at hslot ⊢
    rw [Function.update_of_ne hj, (hothers j hj k).1, hslot]

/-- The entries on the disk after an update of one of them. -/
theorem diskEntries_updates (h : Updates sb A ents i B e) (hi : 0 < i ∧ i < sb.numInodes) :
    diskEntries sb B.view = Function.update (diskEntries sb A.view) i e := by
  funext j
  unfold diskEntries
  by_cases hj : 0 < j ∧ j < sb.numInodes
  · rw [if_pos hj, h.disk j hj.2]
    by_cases hji : j = i
    · rw [if_pos hji, hji, Function.update_self]
    · rw [if_neg hji, Function.update_of_ne hji, if_pos hj]
  · have hji : j ≠ i := by
      rintro rfl
      exact hj hi
    rw [if_neg hj, Function.update_of_ne hji, if_neg hj]

end Facts

/-! ### The invariant -/

section Invariant

variable {sb : SuperBlock} {σ : Type} (M : MapCache sb σ)

/-- What holds between the calls; the last field is what loading an inode is for. -/
structure PutInv (s : PutState σ) : Prop where
  ok : M.Ok s.store
  held : (M.abs s.store).held = ∅
  owns : Owns (slots (diskEntries sb (M.abs s.store).view) (M.abs s.store).view)
    (M.abs s.store).used
  number : ∀ i inode, s.inodes i = some inode → inode.inodeNo = i ∧ 0 < i ∧ i < sb.numInodes
  loaded : ∀ i inode, s.inodes i = some inode → inode.valid = true → inode.entry = s.onDisk M i

variable {M} {s t : PutState σ} {i : ℕ} {inode : Inode}

/-- The cache shows the same blocks, and one inode in memory is replaced. -/
theorem PutInv.set {x : Option Inode} (h : PutInv M s) (hok : M.Ok t.store)
    (habs : M.abs t.store = M.abs s.store) (hinodes : t.inodes = Function.update s.inodes i x)
    (hx : ∀ inode, x = some inode → (inode.inodeNo = i ∧ 0 < i ∧ i < sb.numInodes) ∧
      (inode.valid = true → inode.entry = s.onDisk M i)) : PutInv M t := by
  have hdisk : ∀ j, t.onDisk M j = s.onDisk M j := fun j => by
    rw [PutState.onDisk, PutState.onDisk, habs]
  have hcases : ∀ j inode, t.inodes j = some inode →
      (j = i ∧ x = some inode) ∨ s.inodes j = some inode := by
    intro j inode hj
    rw [hinodes] at hj
    by_cases hji : j = i
    · rw [hji, Function.update_self] at hj
      exact .inl ⟨hji, hj⟩
    · rw [Function.update_of_ne hji] at hj
      exact .inr hj
  refine ⟨hok, ?_, ?_, fun j inode hj => ?_, fun j inode hj hvalid => ?_⟩
  · rw [habs]
    exact h.held
  · rw [habs]
    exact h.owns
  · rcases hcases j inode hj with ⟨rfl, hxi⟩ | hold
    · exact (hx inode hxi).1
    · exact h.number j inode hold
  · rw [hdisk]
    rcases hcases j inode hj with ⟨rfl, hxi⟩ | hold
    · exact (hx inode hxi).2 hvalid
    · exact h.loaded j inode hold hvalid

/-- A put that is not of the last reference of an inode without links in its memory. -/
theorem PutInv.drop (ctx : Option ℕ) (h : PutInv M s) (hi : s.inodes i = some inode) (hrc : inode.rc ≠ 0)
    (hlast : ¬(inode.entry.numLinks = 0 ∧ inode.rc = 1)) :
    ∃ t, putStep sb M.cache s (.put ctx i) = some t ∧ PutInv M t ∧
      t.inodes i = some { inode with rc := inode.rc - 1 } ∧ t.store = s.store := by
  have hrun : (inodePut sb M.cache ctx inode).run s.store
      = .ok (some { inode with rc := inode.rc - 1 }, s.store) := by
    rw [inodePut, if_neg hlast]
    rfl
  refine ⟨s.setInode i (some { inode with rc := inode.rc - 1 }), ?_, ?_,
    Function.update_self _ _ _, rfl⟩
  · simp only [putStep, hi, Option.bind_some, if_neg hrc, hrun]
    rfl
  · refine h.set h.ok rfl rfl fun inode' heq => ?_
    obtain rfl := Option.some.inj heq
    exact ⟨h.number i inode hi, h.loaded i inode hi⟩

/-- The run of such a put of the last reference: the entry that is left has no blocks. -/
theorem PutInv.run_put (ctx : Option ℕ) (hl : sb.Layout) (h : PutInv M s)
    (hi : s.inodes i = some inode)
    (hlinks : inode.entry.numLinks = 0) (hrc : inode.rc = 1)
    (hblocks : ∀ v k, blockOf inode.entry v k = blockOf (s.onDisk M i) v k) :
    ∃ e u, (inodePut sb M.cache ctx inode).run s.store = .ok (none, u) ∧ M.Ok u ∧
      Updates sb (M.abs s.store) (diskEntries sb (M.abs s.store).view) i (M.abs u) e ∧
      e.type = inodeInvalid ∧ ∀ k, blockOf e (M.abs u).view k = 0 := by
  set A := M.abs s.store with hA
  obtain ⟨hno, hpos, hlt⟩ := h.number i inode hi
  have hdisk : diskEntries sb A.view i = s.onDisk M i := if_pos ⟨hpos, hlt⟩
  -- the slots are the same with the entry in memory instead of that on the disk
  set ents := Function.update (diskEntries sb A.view) i inode.entry with hents
  have hself : ents i = inode.entry := Function.update_self _ _ _
  have howns : Owns (slots ents A.view) A.used := by
    refine h.owns.congr fun x => ?_
    show blockOf (ents x.1) A.view x.2 = blockOf (diskEntries sb A.view x.1) A.view x.2
    by_cases hx : x.1 = i
    · rw [hx, hself, hblocks, hdisk]
    · rw [hents, Function.update_of_ne hx]
  have hwp : wp (inodePut sb M.cache ctx inode)
      (fun o u => o = none ∧ ∃ e B, M.At u B ∧ Updates sb A ents i B e ∧ e.type = inodeInvalid ∧
        e.numBytes = 0) (fun _ => False) s.store := by
    refine M.wp_inodePut hl ⟨h.ok, rfl⟩ h.held howns hself.symm hno hlt (fun hnot => ?_)
      fun _ _ e B u hu hup htype hbytes => ⟨rfl, e, B, hu, hup, htype, hbytes⟩
    rw [hself] at hnot
    exact absurd ⟨hlinks, hrc⟩ hnot
  obtain ⟨o, u, hrun, rfl, e, B, ⟨hok, rfl⟩, hup, htype, hbytes⟩ := exists_run_of_wp hwp
  have hmaps := hup.maps
  rw [hbytes] at hmaps
  have hupdate : Function.update ents i e = Function.update (diskEntries sb A.view) i e :=
    Function.update_idem _ _ _
  refine ⟨e, u, hrun, hok, ⟨?_, hup.maps, hup.held, hup.disk, fun j hj => ?_⟩, htype, hmaps.empty⟩
  · rw [← hupdate]
    exact hup.owns
  · have hother := hup.others j hj
    rwa [hents, Function.update_of_ne hj] at hother

/-- A put of the last reference of an inode without links, with the blocks known. -/
theorem PutInv.free (ctx : Option ℕ) (hl : sb.Layout) (h : PutInv M s)
    (hi : s.inodes i = some inode)
    (hlinks : inode.entry.numLinks = 0) (hrc : inode.rc = 1)
    (hblocks : ∀ v k, blockOf inode.entry v k = blockOf (s.onDisk M i) v k) :
    ∃ t, putStep sb M.cache s (.put ctx i) = some t ∧ PutInv M t ∧ FreesInode M s t i := by
  obtain ⟨hno, hpos, hlt⟩ := h.number i inode hi
  obtain ⟨e, u, hrun, hok, hup, htype, hclear⟩ :=
    h.run_put ctx hl hi hlinks hrc hblocks
  have hentries : ∀ j, 0 < j → j < sb.numInodes →
      diskEntries sb (M.abs s.store).view j = s.onDisk M j := fun j hj hlt' => if_pos ⟨hj, hlt'⟩
  set t : PutState σ := { s.setInode i none with store := u } with ht
  have hself : t.onDisk M i = e := (hup.disk i hlt).trans (if_pos rfl)
  have hothers : ∀ j < sb.numInodes, j ≠ i → t.onDisk M j = s.onDisk M j := fun j hj hji =>
    (hup.disk j hj).trans (if_neg hji)
  have hkept : ∀ j inode', t.inodes j = some inode' → j ≠ i ∧ s.inodes j = some inode' := by
    intro j inode' hj
    have hji : j ≠ i := by
      rintro rfl
      rw [show t.inodes j = none from Function.update_self _ _ _] at hj
      cases hj
    rw [show t.inodes j = s.inodes j from Function.update_of_ne hji _ _] at hj
    exact ⟨hji, hj⟩
  refine ⟨t, ?_, ⟨hok, hup.held.trans h.held, ?_, fun j inode' hj => ?_, fun j inode' hj hvalid => ?_⟩,
    ⟨Function.update_self _ _ _, ?_, ?_, fun n => ?_, fun j hj hlt' hji => ⟨hothers j hlt' hji, ?_⟩⟩⟩
  · simp only [putStep, hi, Option.bind_some, hrun]
    rw [if_neg (by rw [hrc]; exact one_ne_zero)]
  · show Owns (slots (diskEntries sb (M.abs u).view) (M.abs u).view) (M.abs u).used
    rw [diskEntries_updates hup ⟨hpos, hlt⟩]
    exact hup.owns
  · exact h.number j inode' (hkept j inode' hj).2
  · obtain ⟨hji, hold⟩ := hkept j inode' hj
    rw [hothers j (h.number j inode' hold).2.2 hji]
    exact h.loaded j inode' hold hvalid
  · rw [hself]
    exact htype
  · rw [hself]
    exact hclear
  · rw [← hentries i hpos hlt]
    exact used_of_cleared h.owns hup.owns hclear hup.others n
  · rw [← hentries j hj hlt']
    exact hup.others j hji

/-- **A put** of an inode whose entry in memory agrees with that on the disk. -/
theorem PutInv.put (ctx : Option ℕ) (hl : sb.Layout) (h : PutInv M s) (hi : s.inodes i = some inode)
    (hrc : inode.rc ≠ 0) (hknown : EntryKnown M s (.put ctx i)) :
    ∃ t, putStep sb M.cache s (.put ctx i) = some t ∧ PutInv M t ∧ PutsInode M s t i inode := by
  by_cases hlast : inode.entry.numLinks = 0 ∧ inode.rc = 1
  · obtain ⟨hlinks, hone⟩ := hlast
    obtain ⟨hiff, hsame⟩ := hknown inode hi hone
    obtain ⟨haddrs, hind⟩ := hsame (hiff.mp hlinks)
    obtain ⟨t, hstep, hinv, hfree⟩ := h.free ctx hl hi hlinks hone
      fun v k => blockOf_same haddrs hind v k
    exact ⟨t, hstep, hinv, fun _ _ => hfree, fun hnot => absurd ⟨hone, hiff.mp hlinks⟩ hnot⟩
  · obtain ⟨t, hstep, hinv, hkept⟩ := h.drop ctx hi hrc hlast
    refine ⟨t, hstep, hinv, fun hone hlinks => ?_, fun _ => hkept⟩
    exact absurd ⟨(hknown inode hi hone).1.mpr hlinks, hone⟩ hlast

/-- **One step** keeps the invariant. -/
theorem PutInv.step {l : PutCall} (hl : sb.Layout) (h : PutInv M s) (hknown : EntryKnown M s l)
    (hs : putStep sb M.cache s l = some t) : PutInv M t := by
  cases l with
  | get i garbage =>
    simp only [putStep] at hs
    split at hs
    · cases hs
    · rename_i hrange
      have hin : 0 < i ∧ i < sb.numInodes := by
        obtain ⟨hne, hnot⟩ := not_or.mp hrange
        exact ⟨Nat.pos_of_ne_zero hne, Nat.not_le.mp hnot⟩
      split at hs
      · rename_i inode hi
        cases hs
        refine h.set h.ok rfl rfl fun inode' heq => ?_
        obtain rfl := Option.some.inj heq
        exact ⟨h.number i inode hi, h.loaded i inode hi⟩
      · cases hs
        refine h.set h.ok rfl rfl fun inode' heq => ?_
        obtain rfl := Option.some.inj heq
        exact ⟨⟨rfl, hin⟩, fun hvalid => by cases hvalid⟩
  | share i =>
    obtain ⟨inode, hi, hs⟩ := Option.bind_eq_some_iff.mp hs
    split at hs
    · cases hs
    · cases hs
      refine h.set h.ok rfl rfl fun inode' heq => ?_
      obtain rfl := Option.some.inj heq
      exact ⟨h.number i inode hi, h.loaded i inode hi⟩
  | lock i =>
    obtain ⟨inode, hi, hs⟩ := Option.bind_eq_some_iff.mp hs
    obtain ⟨hno, hpos, hlt⟩ := h.number i inode hi
    split at hs
    · cases hs
    · split at hs
      · rename_i inode' store hrun
        cases hs
        by_cases hrc : inode.rc = 0
        · rw [inodeLock, if_pos hrc] at hrun
          cases hrun
        · -- the entry of an inode that is not valid comes from the disk
          have hload : M.Ok store ∧ M.abs store = M.abs s.store ∧ inode'.inodeNo = i ∧
              inode'.entry = s.onDisk M i := by
            have hwp : wp (inodeLock sb M.cache inode) (fun inode' u => M.Ok u ∧
                M.abs u = M.abs s.store ∧ inode'.inodeNo = i ∧ inode'.entry = s.onDisk M i)
                (fun _ => False) s.store := by
              refine M.wp_inodeLock hl ⟨h.ok, rfl⟩ h.held hrc (hno.symm ▸ hlt)
                fun u hu => ⟨hu.1, hu.2, hno, ?_⟩
              dsimp only
              split
              · rename_i hvalid
                exact h.loaded i inode hi hvalid
              · rw [hno]
                rfl
            have hdone := wp_run hwp hrun
            exact hdone
          obtain ⟨hok, habs, hno', hentry⟩ := hload
          refine h.set hok habs rfl fun inode'' heq => ?_
          obtain rfl := Option.some.inj heq
          exact ⟨⟨hno', hpos, hlt⟩, fun _ => hentry⟩
      · cases hs
  | unlock i =>
    obtain ⟨inode, hi, hs⟩ := Option.bind_eq_some_iff.mp hs
    split at hs
    · cases hs
    · cases hs
      exact ⟨h.ok, h.held, h.owns, h.number, h.loaded⟩
  | put ctx i =>
    obtain ⟨inode, hi, hrest⟩ := Option.bind_eq_some_iff.mp hs
    have hrc : inode.rc ≠ 0 := by
      intro h0
      rw [if_pos h0] at hrest
      cases hrest
    obtain ⟨t', hstep, hinv, -⟩ := h.put ctx hl hi hrc hknown
    obtain rfl : t' = t := Option.some.inj (hstep.symm.trans hs)
    exact hinv

end Invariant

/-- What holds of all states that such runs reach. -/
theorem PutInv.of_reachable {sb : SuperBlock} {σ : Type} {M : MapCache sb σ} {s : PutState σ}
    (hl : sb.Layout) (h : (putSystem M).Reachable (EntryKnown M) s) : PutInv M s := by
  refine h.induction (fun s hs => ?_) fun s l t hi hknown hs => hi.step hl hknown hs
  obtain ⟨hok, hheld, hnone, howns⟩ := hs
  refine ⟨hok, hheld, howns, fun i inode hi => ?_, fun i inode hi => ?_⟩
  · rw [hnone i] at hi
    cases hi
  · rw [hnone i] at hi
    cases hi

/-- After an inode has been loaded, its entry in memory agrees with that on the disk. -/
theorem entryKnown_of_valid {sb : SuperBlock} {σ : Type} {M : MapCache sb σ} {s : PutState σ}
    {i : ℕ} {inode : Inode} (hl : sb.Layout) (h : (putSystem M).Reachable (EntryKnown M) s)
    (hi : s.inodes i = some inode) (hvalid : inode.valid = true) (ctx : Option ℕ) :
    EntryKnown M s (.put ctx i) := by
  intro inode' hi' _
  obtain rfl : inode = inode' := Option.some.inj (hi.symm.trans hi')
  rw [(PutInv.of_reachable hl h).loaded i inode hi hvalid]
  exact ⟨Iff.rfl, fun _ => ⟨rfl, rfl⟩⟩

/-- **`inode_put` changes the disk only for an inode without links**, with its last reference, and
frees the inode then, in the runs in which the entry in memory agrees with that on the disk at
each put of a last reference. -/
theorem put_changes (sb : SuperBlock) (hl : sb.Layout) (σ : Type) (M : MapCache sb σ)
    (s : PutState σ) (h : (putSystem M).Reachable (EntryKnown M) s) (ctx : Option ℕ) (i : ℕ)
    (inode : Inode) (hi : s.inodes i = some inode) (hrc : inode.rc ≠ 0)
    (hknown : EntryKnown M s (.put ctx i)) :
    ∃ t, (putSystem M).step s (.put ctx i) = some t ∧ PutsInode M s t i inode := by
  obtain ⟨t, hstep, -, hputs⟩ := (PutInv.of_reachable hl h).put ctx hl hi hrc hknown
  exact ⟨t, hstep, hputs⟩

/-! ### Two inodes -/

namespace PutState

/-- A regular file with `n` links and no bytes. -/
def emptyFile (n : UInt16) : InodeEntry := { InodeEntry.blank 2 with numLinks := n }

/-- A disk with two empty files: inode 1 has a link, inode 2 has none. -/
def boot : PutState BlockStore where
  store :=
    { blocks := Function.update (FsState.blankBlocks .mkfs) (toBlockNo .mkfs 1)
        (((BlockData.fill 0).setInodeEntry 1 (emptyFile 1)).setInodeEntry 2 (emptyFile 0))
      held := ∅ }
  inodes := fun _ => none
  lock := fun _ => 0

theorem boot_bitOf (n : ℕ) :
    bitOf .mkfs boot.store.blocks n = bitOf .mkfs (FsState.blankBlocks .mkfs) n := by
  have hne : SuperBlock.mkfs.bitmapStart + n / bitPerBlock ≠ toBlockNo .mkfs 1 := by
    have hlt : toBlockNo .mkfs 1 < SuperBlock.mkfs.bitmapStart := by decide
    exact Nat.ne_of_gt (Nat.lt_of_lt_of_le hlt (Nat.le_add_right _ _))
  unfold bitOf
  rw [show boot.store.blocks (SuperBlock.mkfs.bitmapStart + n / bitPerBlock)
    = FsState.blankBlocks .mkfs (SuperBlock.mkfs.bitmapStart + n / bitPerBlock) from
      Function.update_of_ne hne _ _]

theorem boot_empty : ∀ i < SuperBlock.mkfs.numInodes,
    (diskEntry .mkfs boot.store.blocks i).addrs = (fun _ => 0) ∧
      (diskEntry .mkfs boot.store.blocks i).indirect = 0 := by
  decide +kernel

theorem boot_init : (putSystem mkfsCache).init boot := by
  have hbits := FsState.init_blank.1
  have hle : SuperBlock.mkfs.dataStart ≤ SuperBlock.mkfs.numBlocks := Nat.sub_le _ _
  have hused : boot.store.used .mkfs = ∅ := by
    refine Finset.eq_empty_of_forall_notMem fun n hn => ?_
    obtain ⟨hdata, hbit⟩ := BlockStore.mem_used.mp hn
    rw [boot_bitOf, show bitOf .mkfs (FsState.blankBlocks .mkfs) n = _ from hbits n hdata.2,
      decide_eq_true_eq] at hbit
    exact absurd hdata.1 (Nat.not_le.mpr hbit)
  have hslot : ∀ x, slots (diskEntries .mkfs boot.store.blocks) boot.store.blocks x = 0 := by
    rintro ⟨i, k⟩
    show blockOf (diskEntries .mkfs boot.store.blocks i) boot.store.blocks k = 0
    have hzero : ∀ v, blockOf InodeEntry.zero v k = 0 := fun v => MapCache.blockOf_blank 0 v k
    unfold diskEntries
    split
    · rename_i hi
      rw [blockOf_same (d := .zero) (boot_empty i hi.2).1 (boot_empty i hi.2).2, hzero]
    · exact hzero _
  refine ⟨⟨fun n hn => ?_, fun n hn => ?_⟩, rfl, fun _ => rfl, fun x y hx => ?_, fun n => ?_⟩
  · rw [boot_bitOf, show bitOf .mkfs (FsState.blankBlocks .mkfs) n = _ from
      hbits n (Nat.lt_of_lt_of_le hn hle), decide_eq_true hn]
  · exact absurd hn (Finset.notMem_empty n)
  · exact absurd (hslot x) hx
  · show n ∈ boot.store.used .mkfs ↔ _
    rw [hused]
    refine iff_of_false (Finset.notMem_empty n) ?_
    rintro ⟨hn, x, rfl⟩
    exact hn (hslot x)

end PutState

/-- Inode 2 is loaded, shared and put twice: it is freed with the second put. -/
theorem put_changes_two : ∃ s t inode,
    (putSystem mkfsCache).step s (.put none 2) = some t ∧
    inode.rc = 1 ∧ (s.onDisk mkfsCache 2).numLinks = 0 ∧
    PutsInode mkfsCache s t 2 inode := by
  have hrun : ((putSystem mkfsCache).exec (EntryKnown mkfsCache) .boot
      [.get 2 .zero, .lock 2, .share 2, .put none 2, .unlock 2]).map (fun s =>
        ((s.inodes 2).map Inode.rc,
          (s.onDisk mkfsCache 2).numLinks,
          decide (EntryKnown mkfsCache s (.put none 2))))
      = some (some 1, 0, true) := by
    decide
  obtain ⟨s, hs, heq⟩ := Option.map_eq_some_iff.mp hrun
  obtain ⟨hinode, heq⟩ := Prod.mk.inj heq
  obtain ⟨hlinks, hknown⟩ := Prod.mk.inj heq
  obtain ⟨inode, hi, hrc⟩ := Option.map_eq_some_iff.mp hinode
  obtain ⟨t, hstep, hputs⟩ := put_changes .mkfs SuperBlock.layout_mkfs BlockStore _ s
    ⟨_, PutState.boot_init, System.leads_of_exec hs⟩ none 2 inode hi
    (by rw [hrc]; exact one_ne_zero) (of_decide_eq_true hknown)
  exact ⟨s, t, inode, hstep, hrc, hlinks, hputs⟩

/-- **An inode that was got and not loaded**: inode 1 has a link, and its memory was zero; the put
of its last reference frees it. -/
theorem put_unloaded : ∃ s t inode,
    (putSystem mkfsCache).Reachable (fun _ _ => True) s ∧
    s.inodes 1 = some inode ∧ inode.rc = 1 ∧
    (s.onDisk mkfsCache 1).numLinks = 1 ∧
    (putSystem mkfsCache).step s (.put none 1) = some t ∧
    (t.onDisk mkfsCache 1).type = inodeInvalid ∧
    ¬PutsInode mkfsCache s t 1 inode := by
  have hrun : ((putSystem mkfsCache).exec (fun _ _ => True) .boot
      [.get 1 .zero]).map (fun s => ((s.inodes 1).map Inode.rc,
        (s.onDisk mkfsCache 1).numLinks,
        (s.onDisk mkfsCache 1).type,
        ((putSystem mkfsCache).step s (.put none 1)).map
          fun t => (t.onDisk mkfsCache 1).type))
      = some (some 1, 1, 2, some 0) := by
    decide
  obtain ⟨s, hs, heq⟩ := Option.map_eq_some_iff.mp hrun
  obtain ⟨hinode, heq⟩ := Prod.mk.inj heq
  obtain ⟨hlinks, heq⟩ := Prod.mk.inj heq
  obtain ⟨htype, hstep⟩ := Prod.mk.inj heq
  obtain ⟨inode, hi, hrc⟩ := Option.map_eq_some_iff.mp hinode
  obtain ⟨t, hstep, htype'⟩ := Option.map_eq_some_iff.mp hstep
  refine ⟨s, t, inode, ⟨_, PutState.boot_init, System.leads_of_exec hs⟩, hi, hrc, hlinks, hstep,
    htype', fun hputs => ?_⟩
  have hsame := (hputs.other fun hand => ?_).2
  · rw [PutState.onDisk, hsame] at htype'
    rw [PutState.onDisk, htype'] at htype
    exact absurd htype (by decide)
  · rw [hlinks] at hand
    exact absurd hand.2 (by decide)

end OsLab
