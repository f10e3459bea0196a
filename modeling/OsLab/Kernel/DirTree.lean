/-
The directory tree (`create` and `sys_unlinkat` of `kernel/sysfile.c`).

A run is a sequence of calls that succeed, on a file system of `num_inodes` inodes that starts
with a root directory.  `nameiparent` and `namei` resolve paths as documented: a call gets the
directory that it works on and the last name of its path, and finds what this directory has
under the name.

* `sysUnlinkat` — the call that removes a name;
* `TreeWf` — directories name themselves and their parents, links are counted, and what has a
  name is not free;
* `Flat` — the calls that make no directory and remove no name;
* `tree_wf` — the tree is well formed in their runs;
* `tree_not_wf` — one `mkdirat`, or one `unlinkat`, and it is not.
-/
import OsLab.Kernel.Create
import OsLab.Lib.System
import Mathlib.Algebra.BigOperators.Group.Finset.Basic

namespace OsLab

/-- `ROOT_INODE_NO` -/
abbrev rootInodeNo : ℕ := 1

/-- What `namei` finds for the name in a directory. -/
def resolve (s : InodeTable) (dp : ℕ) (name : List UInt8) : Option ℕ :=
  let no := (scan (s.inode dp).entries (fileName name)).1
  if no = 0 then none else some no

/-- `isdirempty` -/
def isdirempty (e : InodeRecord) : Bool := (e.entries.drop 2).all fun d => d.inodeNo == 0

/-- The entries that the bytes of a directory are. -/
def bytesEntries (bytes : List UInt8) : List DirEntry :=
  (List.range (bytes.length / sizeofDirEntry)).map fun k =>
    .ofBytes ((bytes.drop (k * sizeofDirEntry)).take sizeofDirEntry)

/-- A write of `bytes` at `offset` in a directory. -/
def writeEntries (es : List DirEntry) (offset : ℕ) (bytes : List UInt8) : List DirEntry :=
  bytesEntries (overwrite (MapCache.dirBytes es) offset bytes)

/-- `sys_unlinkat`, where `nameiparent` returns `dp` and the last name of the path -/
def sysUnlinkat (dp : ℕ) (name : List UInt8) : TableM ℤ := do
  reference (some dp)
  lockInode dp
  -- cannot unlink "." or ".."
  if fileName name = dotName ∨ fileName name = dotdotName then
    unlockInode dp
    putInode dp
    return -1
  else
    match scan ((← get).inode dp).entries (fileName name) with
    | (inumber, some off) =>
      if inumber = 0 then
        unlockInode dp
        putInode dp
        return -1
      else
        let ip := inumber
        getInode ip
        lockInode ip
        let e := (← get).inode ip
        if e.numLinks < 1 then throw .panic
        else if e.type = inodeDirectory ∧ isdirempty e = false then
          unlockInode ip
          putInode ip
          unlockInode dp
          putInode dp
          return -1
        else
          -- `off` is the index of the entry
          modify fun s => s.setInode dp { s.inode dp with
            entries := writeEntries (s.inode dp).entries off DirEntry.zero.toBytes }
          if e.type = inodeDirectory then
            modify fun s => s.setInode dp { s.inode dp with numLinks := (s.inode dp).numLinks - 1 }
          unlockInode dp
          putInode dp
          modify fun s => s.setInode ip { s.inode ip with numLinks := (s.inode ip).numLinks - 1 }
          unlockInode ip
          putInode ip
          return 0
    | (_, none) =>
      unlockInode dp
      putInode dp
      return -1

/-- The calls, with the parent and the last name that `nameiparent` returns. -/
inductive DirTreeCall
  | openat (dp : ℕ) (name : List UInt8) (fd : Option ℕ)
  | mkdirat (dp : ℕ) (name : List UInt8)
  | mknodat (dp : ℕ) (name : List UInt8) (ma mi : UInt16)
  | unlinkat (dp : ℕ) (name : List UInt8)

namespace DirTreeCall

def parent : DirTreeCall → ℕ × List UInt8
  | .openat dp name _ | .mkdirat dp name | .mknodat dp name .. | .unlinkat dp name => (dp, name)

def run (s : InodeTable) (num_inodes : ℕ) : DirTreeCall → TableM ℤ
  | .openat dp name fd => sysOpenat num_inodes (some (dp, name)) (resolve s dp name) fd
  | .mkdirat dp name => sysMkdirat num_inodes (some (dp, name)) (resolve s dp name)
  | .mknodat dp name ma mi => sysMknodat num_inodes (some (dp, name)) (resolve s dp name) ma mi
  | .unlinkat dp name => sysUnlinkat dp name

end DirTreeCall

namespace InodeTable

/-- A call that succeeds.  A path resolves to a directory and a name that is not empty. -/
def treeStep (num_inodes : ℕ) (s : InodeTable) (l : DirTreeCall) : Option InodeTable :=
  if (s.inode l.parent.1).type = inodeDirectory ∧ fileName l.parent.2 ≠ [] then
    match (l.run s num_inodes).run s with
    | .ok (ret, t) => if 0 ≤ ret then some t else none
    | .error _ => none
  else none

/-- The entry is a link to the inode. -/
def links (i : ℕ) (e : DirEntry) : Bool := decide (e.inodeNo.toNat = i ∧ e.key ≠ dotName)

/-- How many entries name the inode, not counting `.` -/
def linkCount (s : InodeTable) (num_inodes i : ℕ) : ℕ :=
  ∑ d ∈ Finset.range num_inodes,
    if (s.inode d).type = inodeDirectory then (s.inode d).entries.countP (links i) else 0

structure TreeWf (num_inodes : ℕ) (s : InodeTable) : Prop where
  /-- a directory that an entry names has `.` for itself, and `..` for the one with the entry -/
  dirs : ∀ p, (s.inode p).type = inodeDirectory → ∀ e ∈ (s.inode p).entries,
    e.key ≠ dotName → e.key ≠ dotdotName → (s.inode e.inodeNo.toNat).type = inodeDirectory →
    (scan (s.inode e.inodeNo.toNat).entries dotName).1 = e.inodeNo.toNat ∧
    (scan (s.inode e.inodeNo.toNat).entries dotdotName).1 = p
  links : ∀ i, 0 < i → i < num_inodes → (s.inode i).type ≠ inodeInvalid →
    (s.inode i).numLinks.toNat = s.linkCount num_inodes i
  /-- what an entry names is not free -/
  named : ∀ p, (s.inode p).type = inodeDirectory → ∀ e ∈ (s.inode p).entries, e.inodeNo ≠ 0 →
    (s.inode e.inodeNo.toNat).type ≠ inodeInvalid

end InodeTable

/-- Only a root directory, with `.` and `..` and room that `mkfs` left. -/
def dirTreeSystem (num_inodes : ℕ) : System InodeTable DirTreeCall where
  init s := rootInodeNo < num_inodes ∧ (∃ k, s.inode rootInodeNo = ⟨inodeDirectory, 0, 0, 1,
      .make dotName rootInodeNo :: .make dotdotName rootInodeNo :: List.replicate k .zero⟩) ∧
    (∀ i, i ≠ rootInodeNo → (s.inode i).type = inodeInvalid) ∧ ∀ i, s.lock i = 1
  step := InodeTable.treeStep num_inodes

/-- No directory is made, no name is removed, and inode numbers fit in an entry. -/
def DirTreeCall.Flat (num_inodes : ℕ) (s : InodeTable) : DirTreeCall → Prop
  | .openat dp name _ | .mknodat dp name .. =>
    resolve s dp name = none → ∀ i ∈ freeInode s num_inodes, i < 2 ^ 16
  | .mkdirat dp name => resolve s dp name ≠ none
  | .unlinkat .. => False

/-! ### Searching a directory -/

section Scan

variable {es : List DirEntry} {e : DirEntry} {k : List UInt8} {no : ℕ}

/-- What is found is in an entry with the name. -/
theorem mem_of_scan (h : (scan es k).1 = no) (hno : no ≠ 0) :
    ∃ e ∈ es, e.key = k ∧ e.inodeNo.toNat = no := by
  unfold scan at h
  cases hfirst : firstIndex (hasKey es k) es.length with
  | none =>
    rw [hfirst] at h
    exact absurd h.symm hno
  | some i =>
    obtain ⟨-, htest, -⟩ := firstIndex_eq_some hfirst
    obtain ⟨e, he, hkey⟩ := Option.map_eq_some_iff.mp (of_decide_eq_true htest)
    rw [hfirst] at h
    simp only [found, he, Option.map_some, Option.getD_some] at h
    exact ⟨e, List.mem_of_getElem? he, hkey, h⟩

/-- The first entry is found first. -/
theorem scan_cons (hk : e.key = k) : (scan (e :: es) k).1 = e.inodeNo.toNat := by
  have hfirst : firstIndex (hasKey (e :: es) k) (e :: es).length = some 0 :=
    firstIndex_eq (Nat.succ_pos _) (by simp [hasKey, hk]) fun j hj => absurd hj (Nat.not_lt_zero j)
  rw [scan, hfirst]
  rfl

end Scan

theorem resolve_eq_some {s : InodeTable} {dp ip : ℕ} {name : List UInt8}
    (h : resolve s dp name = some ip) : ip ≠ 0 ∧ ∃ e ∈ (s.inode dp).entries,
      e.key = fileName name ∧ e.inodeNo.toNat = ip := by
  unfold resolve at h
  dsimp only at h
  split at h
  · cases h
  · rename_i hno
    cases h
    exact ⟨hno, mem_of_scan rfl hno⟩

theorem resolve_eq_none {s : InodeTable} {dp : ℕ} {name : List UInt8}
    (h : resolve s dp name = none) : (scan (s.inode dp).entries (fileName name)).1 = 0 := by
  unfold resolve at h
  dsimp only at h
  split at h
  · rename_i hno
    exact hno
  · cases h

/-! ### A tree of one directory -/

namespace InodeTable

variable {s t : InodeTable} {num_inodes i ip : ℕ} {name : List UInt8}

/-- What holds in these runs. -/
structure OneDir (num_inodes : ℕ) (s : InodeTable) : Prop where
  root_lt : rootInodeNo < num_inodes
  root : (s.inode rootInodeNo).type = inodeDirectory
  dirs : ∀ i, i ≠ rootInodeNo → (s.inode i).type ≠ inodeDirectory
  dots : ∃ rest, (s.inode rootInodeNo).entries =
    .make dotName rootInodeNo :: .make dotdotName rootInodeNo :: rest
  /-- the root has no other name -/
  others : ∀ e ∈ (s.inode rootInodeNo).entries, e.key ≠ dotName → e.key ≠ dotdotName →
    e.inodeNo.toNat ≠ rootInodeNo
  named : ∀ e ∈ (s.inode rootInodeNo).entries, e.inodeNo ≠ 0 →
    (s.inode e.inodeNo.toNat).type ≠ inodeInvalid
  links : ∀ i, 0 < i → (s.inode i).type ≠ inodeInvalid →
    (s.inode i).numLinks.toNat = (s.inode rootInodeNo).entries.countP (links i)
  lock : ∀ i, 0 < s.lock i
  rootLock : s.lock rootInodeNo = 1
  freeLock : ∀ i, (s.inode i).type = inodeInvalid → s.lock i = 1

namespace OneDir

theorem congr (h : OneDir num_inodes s) (hinode : t.inode = s.inode) (hlock : ∀ i, 0 < t.lock i)
    (hroot : t.lock rootInodeNo = 1) (hfree : ∀ i, (s.inode i).type = inodeInvalid → t.lock i = 1) :
    OneDir num_inodes t := by
  refine ⟨h.root_lt, ?_, ?_, ?_, ?_, ?_, ?_, hlock, hroot, by rwa [hinode]⟩
  all_goals rw [hinode]
  · exact h.root
  · exact h.dirs
  · exact h.dots
  · exact h.others
  · exact h.named
  · exact h.links

theorem wf (h : OneDir num_inodes s) : TreeWf num_inodes s := by
  have hroot : ∀ p, (s.inode p).type = inodeDirectory → p = rootInodeNo := by
    intro p hp
    by_contra hne
    exact h.dirs p hne hp
  refine ⟨fun p hp e he hdot hdotdot hdir => ?_, fun i hpos _ htype => ?_, fun p hp e he hno => ?_⟩
  · obtain rfl := hroot p hp
    exact absurd (hroot _ hdir) (h.others e he hdot hdotdot)
  · rw [h.links i hpos htype, linkCount,
      Finset.sum_eq_single_of_mem rootInodeNo (Finset.mem_range.mpr h.root_lt), if_pos h.root]
    intro d _ hne
    exact if_neg (h.dirs d hne)
  · obtain rfl := hroot p hp
    exact h.named e he hno

/-- `..` is a link to the root. -/
theorem rootLinks (h : OneDir num_inodes s) : (s.inode rootInodeNo).numLinks ≠ 0 := by
  intro hzero
  have hcount := h.links rootInodeNo Nat.one_pos (by rw [h.root]; decide)
  rw [hzero] at hcount
  obtain ⟨rest, hrest⟩ := h.dots
  have hlink : InodeTable.links rootInodeNo (.make dotdotName rootInodeNo) = true := by decide
  have hpos : 0 < (s.inode rootInodeNo).entries.countP (InodeTable.links rootInodeNo) := by
    rw [List.countP_pos_iff, hrest]
    exact ⟨_, List.mem_cons_of_mem _ List.mem_cons_self, hlink⟩
  rw [← hcount] at hpos
  exact absurd hpos (lt_irrefl 0)

theorem resolve_dot (h : OneDir num_inodes s) (hname : fileName name = dotName) :
    resolve s rootInodeNo name = some rootInodeNo := by
  obtain ⟨rest, hrest⟩ := h.dots
  have hkey : (DirEntry.make dotName rootInodeNo).key = dotName := by decide
  unfold resolve
  dsimp only
  rw [hrest, hname, scan_cons hkey]
  rfl

theorem found_type (h : OneDir num_inodes s) (hip : resolve s rootInodeNo name = some ip) :
    (s.inode ip).type ≠ inodeInvalid := by
  obtain ⟨hno, e, he, -, rfl⟩ := resolve_eq_some hip
  refine h.named e he fun hzero => hno ?_
  rw [hzero]
  rfl

/-- What a path finds, but for the root, is a file with a link. -/
theorem found_links (h : OneDir num_inodes s) (hip : resolve s rootInodeNo name = some ip)
    (hne : ip ≠ rootInodeNo) : (s.inode ip).numLinks ≠ 0 := by
  obtain ⟨hno, e, he, hkey, heno⟩ := resolve_eq_some hip
  have hdot : e.key ≠ dotName := by
    intro hdot
    rw [h.resolve_dot (hkey ▸ hdot)] at hip
    exact hne (Option.some.inj hip).symm
  have hcount := h.links ip (Nat.pos_of_ne_zero hno) (h.found_type hip)
  intro hzero
  rw [hzero] at hcount
  have hpos : 0 < (s.inode rootInodeNo).entries.countP (InodeTable.links ip) :=
    List.countP_pos_iff.mpr ⟨e, he, decide_eq_true ⟨heno, hdot⟩⟩
  rw [← hcount] at hpos
  exact absurd hpos (lt_irrefl 0)

theorem inv_init (h : (dirTreeSystem num_inodes).init s) : OneDir num_inodes s := by
  obtain ⟨hlt, ⟨k, hroot⟩, hfree, hlock⟩ := h
  have hentries : (s.inode rootInodeNo).entries = .make dotName rootInodeNo ::
      .make dotdotName rootInodeNo :: List.replicate k .zero := by rw [hroot]
  -- what is in the root is one of the two entries, or blank
  have hmem : ∀ e ∈ (s.inode rootInodeNo).entries, e = .make dotName rootInodeNo ∨
      e = .make dotdotName rootInodeNo ∨ e = .zero := by
    intro e he
    rw [hentries] at he
    rcases List.mem_cons.mp he with he | he
    · exact .inl he
    · rcases List.mem_cons.mp he with he | he
      · exact .inr (.inl he)
      · exact .inr (.inr (List.eq_of_mem_replicate he))
  refine ⟨hlt, by rw [hroot], fun i hi => ?_, ⟨_, hentries⟩, fun e he hdot hdotdot => ?_,
    fun e he hno => ?_, fun i _ htype => ?_, fun i => ?_, hlock _, fun i _ => hlock i⟩
  · rw [hfree i hi]
    decide
  · rcases hmem e he with rfl | rfl | rfl
    · exact absurd (by decide) hdot
    · exact absurd (by decide) hdotdot
    · decide
  · have hone : e.inodeNo.toNat = rootInodeNo := by
      rcases hmem e he with rfl | rfl | rfl
      · rfl
      · rfl
      · exact absurd rfl hno
    rw [hone, hroot]
    show inodeDirectory ≠ inodeInvalid
    decide
  · obtain rfl : i = rootInodeNo := by
      by_contra hne
      exact htype (hfree i hne)
    have hblank : (List.replicate k DirEntry.zero).countP (InodeTable.links rootInodeNo) = 0 := by
      rw [List.countP_replicate]
      exact if_neg (by decide)
    rw [hentries, hroot, List.countP_cons_of_neg (by decide), List.countP_cons_of_pos (by decide),
      hblank]
    rfl
  · rw [hlock i]
    decide

end OneDir

/-- Putting an inode that has a link does not free it. -/
theorem put_inode (h : (s.inode i).numLinks ≠ 0) : (s.put i).inode = s.inode := by
  unfold put
  rw [if_neg fun hfree => h hfree.1]
  rfl

/-- What is true after `create` has returned an inode, and its caller has unlocked it. -/
def Returned (num_inodes : ℕ) (r : Option ℕ) (t : InodeTable) : Prop :=
  ∀ ip ∈ r, OneDir num_inodes (t.unlock ip) ∧ (t.inode ip).numLinks ≠ 0

namespace OneDir

variable {type major minor : UInt16}

/-- A name that exists. -/
theorem create_found (h : OneDir num_inodes s) (hip : resolve s rootInodeNo name = some ip) :
    wp (create num_inodes (some (rootInodeNo, name)) (some ip) type major minor)
      (Returned num_inodes) (fun _ => True) s := by
  by_cases hne : ip = rootInodeNo
  · rw [hne, wp_create_self h.rootLock]
    trivial
  · rw [wp_create_found hne (h.lock _) (h.lock _)]
    split
    · exact fun _ hnone => by cases hnone
    · rintro _ ⟨⟩
      have hinode : ((s.visit rootInodeNo ip).put rootInodeNo).inode = s.inode :=
        put_inode h.rootLinks
      have hlock : ((s.visit rootInodeNo ip).put rootInodeNo).lock = s.lock := by
        rw [put_lock, visit_lock hne]
      have hlinks := h.found_links hip hne
      refine ⟨h.congr hinode (fun j => ?_) ?_ fun j hj => ?_, ?_⟩
      · rw [unlock_lock, hlock]
        by_cases hj : j = ip
        · subst hj
          rw [Function.update_self]
          exact lt_trans (h.lock j) (lt_add_one _)
        · rw [Function.update_of_ne hj]
          exact h.lock j
      · rw [unlock_lock, hlock, Function.update_of_ne (Ne.symm hne)]
        exact h.rootLock
      · have hne' : j ≠ ip := by
          rintro rfl
          exact h.found_type hip hj
        rw [unlock_lock, hlock, Function.update_of_ne hne']
        exact h.freeLock j hj
      · rw [hinode]
        exact hlinks

end OneDir

theorem freeInode_pos (h : freeInode s num_inodes = some i) : 0 < i := by
  have hfound := List.find?_some (p := fun i => decide (0 < i ∧ (s.inode i).type = inodeInvalid)) h
  exact (of_decide_eq_true hfound).1

/-- The inodes after a file was made in a directory that has a link. -/
theorem created_inode {dp : ℕ} {type : UInt16} (major minor : UInt16) (hne : i ≠ dp)
    (htype : type ≠ inodeDirectory) (hscan : (scan (s.inode dp).entries (fileName name)).1 = 0)
    (hlinks : (s.inode dp).numLinks ≠ 0) :
    (s.created dp name i type major minor).inode =
      Function.update (Function.update s.inode i ⟨type, major, minor, 1, []⟩) dp
        { s.inode dp with entries := (s.inode dp).entries ++ [.make name i] } := by
  have hfresh : (s.fresh dp i type major minor).inode =
      Function.update s.inode i ⟨type, major, minor, 1, []⟩ := Function.update_idem _ _ _
  have hparent : (s.fresh dp i type major minor).inode dp = s.inode dp := fresh_parent hne
  have hadd : ((s.fresh dp i type major minor).addEntry dp name i).inode =
      Function.update (Function.update s.inode i ⟨type, major, minor, 1, []⟩) dp
        { s.inode dp with entries := (s.inode dp).entries ++ [.make name i] } := by
    unfold addEntry
    rw [hparent, if_neg (not_not.mpr hscan)]
    show Function.update (s.fresh dp i type major minor).inode dp _ = _
    rw [hfresh]
  dsimp only [created]
  rw [if_neg htype, put_inode]
  · exact hadd
  · rw [unlock_inode, hadd, Function.update_self]
    exact hlinks

namespace OneDir

variable {type major minor : UInt16}

/-- An entry for a new file. -/
theorem addFile (h : OneDir num_inodes s) {e : InodeRecord} (hfree : (s.inode i).type = inodeInvalid)
    (hpos : 0 < i) (hsmall : i < 2 ^ 16) (hname : fileName name ≠ dotName)
    (htype : e.type ≠ inodeDirectory) (hvalid : e.type ≠ inodeInvalid) (hlinks : e.numLinks = 1)
    (ht : t.inode = Function.update (Function.update s.inode i e) rootInodeNo
      { s.inode rootInodeNo with
        entries := (s.inode rootInodeNo).entries ++ [.make name i] })
    (hlock : t.lock = s.lock) : OneDir num_inodes t := by
  have hne : i ≠ rootInodeNo := by
    rintro rfl
    rw [h.root] at hfree
    cases hfree
  have hno : (DirEntry.make name i).inodeNo.toNat = i := by
    show (UInt16.ofNat i).toNat = i
    rw [UInt16.toNat_ofNat']
    exact Nat.mod_eq_of_lt hsmall
  have hroot : t.inode rootInodeNo = { s.inode rootInodeNo with
      entries := (s.inode rootInodeNo).entries ++ [.make name i] } := by
    rw [ht, Function.update_self]
  have hi : t.inode i = e := by
    rw [ht, Function.update_of_ne hne, Function.update_self]
  have hother : ∀ j, j ≠ rootInodeNo → j ≠ i → t.inode j = s.inode j := by
    intro j hj hji
    rw [ht, Function.update_of_ne hj, Function.update_of_ne hji]
  -- a name of an inode that was in use keeps it in use
  have hused : ∀ j, (s.inode j).type ≠ inodeInvalid → (t.inode j).type ≠ inodeInvalid := by
    intro j hj
    by_cases hjr : j = rootInodeNo
    · rw [hjr, hroot]
      show (s.inode rootInodeNo).type ≠ inodeInvalid
      rw [← hjr]
      exact hj
    · by_cases hji : j = i
      · rw [hji, hi]
        exact hvalid
      · rw [hother j hjr hji]
        exact hj
  have hmem : ∀ d ∈ (t.inode rootInodeNo).entries, d ∈ (s.inode rootInodeNo).entries ∨
      d = .make name i := by
    intro d hd
    rw [hroot] at hd
    rcases List.mem_append.mp hd with hd | hd
    · exact .inl hd
    · exact .inr (List.mem_singleton.mp hd)
  refine ⟨h.root_lt, ?_, fun j hj => ?_, ?_, fun d hd hdot hdotdot => ?_, fun d hd hdno => ?_,
    fun j hj hjtype => ?_, fun j => ?_, ?_, fun j hj => ?_⟩
  · rw [hroot]
    exact h.root
  · by_cases hji : j = i
    · rw [hji, hi]
      exact htype
    · rw [hother j hj hji]
      exact h.dirs j hj
  · obtain ⟨rest, hrest⟩ := h.dots
    refine ⟨rest ++ [.make name i], ?_⟩
    rw [hroot]
    show (s.inode rootInodeNo).entries ++ _ = _
    rw [hrest]
    rfl
  · rcases hmem d hd with hd | rfl
    · exact h.others d hd hdot hdotdot
    · rw [hno]
      exact hne
  · rcases hmem d hd with hd | rfl
    · exact hused _ (h.named d hd hdno)
    · rw [hno, hi]
      exact hvalid
  · have hnew : ∀ k, InodeTable.links k (.make name i) = decide (k = i) := by
      intro k
      have hkey : (DirEntry.make name i).key ≠ dotName := by
        rw [DirEntry.key_make]
        exact hname
      simp only [InodeTable.links, hno, hkey, ne_eq, not_false_eq_true, and_true, eq_comm]
    rw [hroot]
    show _ = ((s.inode rootInodeNo).entries ++ [DirEntry.make name i]).countP _
    rw [List.countP_append, List.countP_singleton, hnew]
    by_cases hji : j = i
    · subst hji
      -- nothing had named it
      have hzero : (s.inode rootInodeNo).entries.countP (InodeTable.links j) = 0 := by
        rw [List.countP_eq_zero]
        intro d hd hdlinks
        obtain ⟨hdno, -⟩ := of_decide_eq_true hdlinks
        refine h.named d hd (fun hzero => ?_) (hdno ▸ hfree)
        rw [hzero] at hdno
        exact hpos.ne hdno
      rw [hi, hlinks, hzero]
      simp
    · have hsame : (t.inode j).numLinks = (s.inode j).numLinks ∧
          (t.inode j).type = (s.inode j).type := by
        by_cases hjr : j = rootInodeNo
        · rw [hjr, hroot]
          exact ⟨rfl, rfl⟩
        · rw [hother j hjr hji]
          exact ⟨rfl, rfl⟩
      rw [hsame.1, h.links j hj (hsame.2 ▸ hjtype)]
      simp [hji]
  · rw [hlock]
    exact h.lock j
  · rw [hlock]
    exact h.rootLock
  · rw [hlock]
    refine h.freeLock j ?_
    by_contra hjused
    exact hused j hjused hj

/-- A new file in the root. -/
theorem create_fresh (h : OneDir num_inodes s) (htype : type ≠ inodeDirectory)
    (hname : resolve s rootInodeNo name = none) (hsmall : ∀ i ∈ freeInode s num_inodes, i < 2 ^ 16) :
    wp (create num_inodes (some (rootInodeNo, name)) none type major minor)
      (Returned num_inodes) (fun _ => True) s := by
  rw [wp_create_fresh (h.lock _) h.root fun j _ => h.lock j]
  split
  · trivial
  · rename_i hvalid
    cases hfound : freeInode s num_inodes with
    | none => trivial
    | some i =>
      dsimp only
      split
      · trivial
      · rintro _ ⟨⟩
        have hinvalid := freeInode_spec hfound
        have hne : i ≠ rootInodeNo := by
          rintro rfl
          rw [h.root] at hinvalid
          cases hinvalid
        have hi := h.freeLock i hinvalid
        have hinode := created_inode major minor hne htype (resolve_eq_none hname) h.rootLinks
        obtain ⟨hlock, -, -⟩ := created_spec name type major minor hne h.rootLock hi
        have hdot : fileName name ≠ dotName := by
          intro hdot
          rw [h.resolve_dot hdot] at hname
          cases hname
        have hunlock : ((s.created rootInodeNo name i type major minor).unlock i).lock = s.lock := by
          rw [unlock_lock, hlock, Function.update_self, Function.update_idem, zero_add, ← hi,
            Function.update_eq_self]
        have hinode' := (unlock_inode (s.created rootInodeNo name i type major minor) i).trans hinode
        constructor
        · exact h.addFile (e := ⟨type, major, minor, 1, []⟩) hinvalid (freeInode_pos hfound)
            (hsmall i hfound) hdot htype hvalid rfl hinode' hunlock
        · rw [hinode, Function.update_of_ne hne, Function.update_self]
          show (1 : UInt16) ≠ 0
          decide

/-- A name in the root, there or not. -/
theorem create_resolve (h : OneDir num_inodes s) (type major minor : UInt16) (hnew : resolve s rootInodeNo name = none →
      type ≠ inodeDirectory ∧ ∀ i ∈ freeInode s num_inodes, i < 2 ^ 16) :
    wp (create num_inodes (some (rootInodeNo, name)) (resolve s rootInodeNo name) type major minor)
      (Returned num_inodes) (fun _ => True) s := by
  cases hname : resolve s rootInodeNo name with
  | none => exact h.create_fresh (hnew hname).1 hname (hnew hname).2
  | some ip => exact h.create_found hname

theorem put (h : OneDir num_inodes s) (hlinks : (s.inode i).numLinks ≠ 0) :
    OneDir num_inodes (s.put i) := by
  refine h.congr (put_inode hlinks) ?_ ?_ ?_
  all_goals rw [put_lock]
  · exact h.lock
  · exact h.rootLock
  · exact h.freeLock

/-- A call that succeeds leaves one directory. -/
theorem run (h : OneDir num_inodes s) {l : DirTreeCall} (hdir : (s.inode l.parent.1).type = inodeDirectory)
    (hl : l.Flat num_inodes s) : wp (l.run s num_inodes)
      (fun ret t => 0 ≤ ret → OneDir num_inodes t) (fun _ => True) s := by
  have hroot : l.parent.1 = rootInodeNo := by
    by_contra hne
    exact h.dirs _ hne hdir
  have hput : ∀ {ip : ℕ} {t : InodeTable}, Returned num_inodes (some ip) t →
      OneDir num_inodes ((t.unlock ip).put ip) := by
    intro ip t hret
    obtain ⟨hone, hlinks⟩ := hret ip rfl
    exact hone.put hlinks
  cases l with
  | openat dp name fd =>
    obtain rfl : dp = rootInodeNo := hroot
    have hcreate := h.create_resolve inodeRegular 0 0 fun hnone => ⟨by decide, hl hnone⟩
    refine wp_bind.mpr (wp_mono hcreate (fun r t hret => ?_) fun _ he => he)
    cases r with
    | none => exact fun hneg => absurd hneg (by decide)
    | some ip =>
      cases fd with
      | none => exact fun hneg => absurd hneg (by decide)
      | some fd => exact fun _ => (hret ip rfl).1
  | mkdirat dp name =>
    obtain rfl : dp = rootInodeNo := hroot
    have hcreate := h.create_resolve inodeDirectory 0 0 fun hnone => absurd hnone hl
    refine wp_bind.mpr (wp_mono hcreate (fun r t hret => ?_) fun _ he => he)
    cases r with
    | none => exact fun hneg => absurd hneg (by decide)
    | some ip => exact fun _ => hput hret
  | mknodat dp name ma mi =>
    obtain rfl : dp = rootInodeNo := hroot
    have hcreate := h.create_resolve inodeDevice ma mi fun hnone => ⟨by decide, hl hnone⟩
    refine wp_bind.mpr (wp_mono hcreate (fun r t hret => ?_) fun _ he => he)
    cases r with
    | none => exact fun hneg => absurd hneg (by decide)
    | some ip => exact fun _ => hput hret
  | unlinkat dp name => exact hl.elim

theorem step (h : OneDir num_inodes s) {l : DirTreeCall} (hl : l.Flat num_inodes s)
    (hs : s.treeStep num_inodes l = some t) : OneDir num_inodes t := by
  unfold treeStep at hs
  split at hs
  · rename_i hpath
    have hrun := h.run hpath.1 hl
    split at hs
    · rename_i ret u heq
      split at hs
      · rename_i hret
        cases hs
        exact wp_run hrun heq hret
      · cases hs
    · cases hs
  · cases hs

end OneDir

end InodeTable

/-- **The tree is well formed** in runs that make no directory and remove no name. -/
theorem tree_wf (num_inodes : ℕ) (s : InodeTable)
    (h : (dirTreeSystem num_inodes).Reachable (DirTreeCall.Flat num_inodes) s) :
    s.TreeWf num_inodes :=
  InodeTable.OneDir.wf (h.induction (I := InodeTable.OneDir num_inodes)
    (fun _ => InodeTable.OneDir.inv_init) fun _ _ _ hone hl hs => hone.step hl hs)

/-- After `mkfs`. -/
def InodeTable.mkfs : InodeTable where
  inode i := if i = rootInodeNo then
      ⟨inodeDirectory, 0, 0, 1, [.make dotName rootInodeNo, .make dotdotName rootInodeNo, .zero]⟩
    else ⟨inodeInvalid, 0, 0, 0, []⟩
  lock _ := 1
  rc i := if i = rootInodeNo then 1 else 0
  high := false

theorem InodeTable.init_mkfs : (dirTreeSystem 8).init .mkfs :=
  ⟨by decide, ⟨1, rfl⟩, fun _ hi => congrArg InodeRecord.type (if_neg hi), fun _ => rfl⟩

instance (num_inodes : ℕ) (s : InodeTable) (l : DirTreeCall) : Decidable (l.Flat num_inodes s) :=
  match l with
  | .openat .. | .mknodat .. => inferInstanceAs (Decidable (_ = none → ∀ i ∈ freeInode _ _, i < 2 ^ 16))
  | .mkdirat .. => inferInstanceAs (Decidable (¬_ = none))
  | .unlinkat .. => .isFalse id

/-- A device and a file, which is opened again. -/
theorem tree_wf_two : ∃ s : InodeTable, (s.inode rootInodeNo).entries.length = 5 ∧
    (s.inode 3).numLinks = 1 ∧ s.TreeWf 8 := by
  have hrun : ((dirTreeSystem 8).exec (DirTreeCall.Flat 8) .mkfs
      [.mknodat 1 [99] 1 1, .openat 1 [97] (some 0), .openat 1 [97] (some 1)]).map
      (fun s => ((s.inode rootInodeNo).entries.length, (s.inode 3).numLinks)) = some (5, 1) := by
    decide
  obtain ⟨s, hs, heq⟩ := Option.map_eq_some_iff.mp hrun
  obtain ⟨hlength, hlinks⟩ := Prod.mk.inj heq
  exact ⟨s, hlength, hlinks, tree_wf 8 s ⟨_, InodeTable.init_mkfs, System.leads_of_exec hs⟩⟩

/-- **The tree is not well formed after one `mkdirat`**, which makes `..` a name of the new
directory, **or after one `unlinkat`**, which frees a file and leaves its entry. -/
theorem tree_not_wf :
    (∃ s, (dirTreeSystem 8).Reachable (fun _ _ => True) s ∧
      (scan (s.inode 2).entries dotdotName).1 = 2 ∧ ¬s.TreeWf 8) ∧
    ∃ s, (dirTreeSystem 8).Reachable (fun _ _ => True) s ∧
      (s.inode 2).type = inodeInvalid ∧ ¬s.TreeWf 8 := by
  constructor
  · have hrun : ((dirTreeSystem 8).exec (fun _ _ => True) .mkfs [.mkdirat 1 [97]]).map
        (fun s => (((s.inode 1).type, (s.inode 2).type), (s.inode 1).entries[3]?.map fun e =>
          (e.inodeNo, e.key), (scan (s.inode 2).entries dotdotName).1)) =
        some ((inodeDirectory, inodeDirectory), some (2, [97]), 2) := by
      decide
    obtain ⟨s, hs, heq⟩ := Option.map_eq_some_iff.mp hrun
    obtain ⟨htypes, heq⟩ := Prod.mk.inj heq
    obtain ⟨hroot, htype⟩ := Prod.mk.inj htypes
    obtain ⟨hentry, hscan⟩ := Prod.mk.inj heq
    obtain ⟨e, he, heq⟩ := Option.map_eq_some_iff.mp hentry
    obtain ⟨hno, hkey⟩ := Prod.mk.inj heq
    refine ⟨s, ⟨_, InodeTable.init_mkfs, System.leads_of_exec hs⟩, hscan, fun hwf => ?_⟩
    have hdirs := hwf.dirs 1 hroot e (List.mem_of_getElem? he) (by rw [hkey]; decide)
      (by rw [hkey]; decide)
    rw [hno] at hdirs
    have hparent := (hdirs htype).2
    rw [show (2 : UInt16).toNat = 2 from rfl, hscan] at hparent
    cases hparent
  · have hrun : ((dirTreeSystem 8).exec (fun _ _ => True) .mkfs
        [.mknodat 1 [97] 1 1, .unlinkat 1 [97]]).map
        (fun s => ((s.inode 1).type, (s.inode 2).type, (s.inode 1).entries[3]?.map fun e =>
          e.inodeNo)) =
        some (inodeDirectory, inodeInvalid, some 2) := by
      decide
    obtain ⟨s, hs, heq⟩ := Option.map_eq_some_iff.mp hrun
    obtain ⟨hroot, heq⟩ := Prod.mk.inj heq
    obtain ⟨htype, hentry⟩ := Prod.mk.inj heq
    obtain ⟨e, he, hno⟩ := Option.map_eq_some_iff.mp hentry
    refine ⟨s, ⟨_, InodeTable.init_mkfs, System.leads_of_exec hs⟩, htype, fun hwf => ?_⟩
    have hnamed := hwf.named 1 hroot e (List.mem_of_getElem? he) (by rw [hno]; decide)
    rw [hno] at hnamed
    exact hnamed htype

end OsLab
