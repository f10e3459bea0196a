/-
Making inodes (`create` and its callers in `kernel/sysfile.c`).

A state has the sleep lock and the reference count of every inode, what is in it, and the
entries of directories.  `namex` is a stub, so what `nameiparent` and `namei` return is an
input.  A call that panics, or that waits for a lock it holds itself, has no result.

* `create` — and `sysOpenat`, `sysMkdirat`, `sysMknodat`, which release the lock of what it
  returns;
* `Created` — what `create` owes its callers;
* `CreateFits` — when it does so;
* `create_owes` — the two are the same, and then the callers leave all locks as they were;
* `create_unlocked` — a file that exists is returned without its lock.
-/
import OsLab.Fs.Directory
import OsLab.Lib.Hoare

namespace OsLab

/-- `INODE_REGULAR` -/
abbrev inodeRegular : UInt16 := 2

/-- `INODE_DEVICE` -/
abbrev inodeDevice : UInt16 := 3

/-- What an inode has besides its blocks; `entries` is the content of a directory. -/
structure InodeRecord where
  type : UInt16
  major : UInt16
  minor : UInt16
  numLinks : UInt16
  entries : List DirEntry

/-- The inodes by their numbers. -/
structure InodeTable where
  inode : ℕ → InodeRecord
  /-- `lock.val` -/
  lock : ℕ → ℤ
  /-- `rc.count` -/
  rc : ℕ → ℤ
  /-- a lock was posted above 1 -/
  high : Bool

/-- Why a call has no result. -/
inductive CallStop
  | panic
  /-- it waits for a lock that nobody else holds -/
  | waits

abbrev TableM : Type → Type := StateT InodeTable (Except CallStop)

namespace InodeTable

def setInode (s : InodeTable) (i : ℕ) (e : InodeRecord) : InodeTable :=
  { s with inode := Function.update s.inode i e }

def addLock (s : InodeTable) (i : ℕ) (d : ℤ) : InodeTable :=
  { s with lock := Function.update s.lock i (s.lock i + d) }

def addRc (s : InodeTable) (i : ℕ) (d : ℤ) : InodeTable :=
  { s with rc := Function.update s.rc i (s.rc i + d) }

def unlock (s : InodeTable) (i : ℕ) : InodeTable :=
  { s.addLock i 1 with high := s.high || decide (1 < s.lock i + 1) }

/-- The last reference to an inode without links frees it; `int r` of `inode_put` is `rc.count`
as it is, for counts below 2^31. -/
def put (s : InodeTable) (i : ℕ) : InodeTable :=
  if (s.inode i).numLinks = 0 ∧ s.rc i = 1 then
    (s.setInode i { s.inode i with type := inodeInvalid, entries := [] }).addRc i (-1)
  else s.addRc i (-1)

end InodeTable

/-! ### The inode layer -/

/-- `inode_lock` -/
def lockInode (i : ℕ) : TableM Unit := do
  let s ← get
  if s.lock i ≤ 0 then throw .waits else set (s.addLock i (-1))

/-- `inode_unlock` -/
def unlockInode (i : ℕ) : TableM Unit := modify fun s => s.unlock i

/-- `inode_get`; it never returns NULL. -/
def getInode (i : ℕ) : TableM Unit := modify fun s => s.addRc i 1

/-- `inode_put` -/
def putInode (i : ℕ) : TableM Unit := modify fun s => s.put i

/-- The loop of `inode_alloc`. -/
def freeInode (s : InodeTable) (num_inodes : ℕ) : Option ℕ :=
  (List.range num_inodes).find? fun i => decide (0 < i ∧ (s.inode i).type = inodeInvalid)

/-- `inode_alloc` -/
def allocInode (num_inodes : ℕ) (type : UInt16) : TableM ℕ := do
  if type = inodeInvalid then throw .panic
  let s ← get
  match freeInode s num_inodes with
  | none => throw .panic
  | some i =>
    set (s.setInode i ⟨type, 0, 0, 0, []⟩)
    return i

/-- The entry that `inode_insert` writes. -/
def DirEntry.make (name : List UInt8) (no : ℕ) : DirEntry :=
  ⟨.ofNat no, fun k => (strncpy (strPtr name) fileNameMaxLength).getD k 0⟩

/-- `inode_insert`, at the end of the directory, as long as this does not exceed
`INODE_MAX_BYTES` -/
def insertInode (dp : ℕ) (name : List UInt8) (no : ℕ) : TableM Unit := do
  let s ← get
  let e := s.inode dp
  if e.type ≠ inodeDirectory then throw .panic
  if (scan e.entries (fileName name)).1 ≠ 0 then return ()
  if inodeMaxBytes < e.entries.length * sizeofDirEntry + sizeofDirEntry then throw .panic
  set (s.setInode dp { e with entries := e.entries ++ [.make name no] })

/-- What `nameiparent` and `namei` return is referenced. -/
def reference (found : Option ℕ) : TableM Unit :=
  match found with
  | none => return ()
  | some i => getInode i

/-! ### `create` and its callers -/

/-- `"."` -/
def dotName : List UInt8 := [46]

/-- `".."` -/
def dotdotName : List UInt8 := [46, 46]

/-- `create`, where `nameiparent` returns `parent` and the last name of the path, and `namei`
returns `found` -/
def create (num_inodes : ℕ) (parent : Option (ℕ × List UInt8)) (found : Option ℕ)
    (type major minor : UInt16) : TableM (Option ℕ) := do
  reference (parent.map Prod.fst)
  match parent with
  | none => return none
  | some (dp, name) =>
    lockInode dp
    reference found
    match found with
    | some ip =>
      lockInode ip
      let t := ((← get).inode ip).type
      if type = inodeDirectory ∧ t ≠ inodeDirectory then
        unlockInode dp
        unlockInode ip
        putInode dp
        putInode ip
        return none
      else if type ≠ inodeDirectory ∧ t = inodeDirectory then
        unlockInode dp
        unlockInode ip
        putInode dp
        putInode ip
        return none
      else
        unlockInode dp
        unlockInode ip
        putInode dp
        return some ip
    | none =>
      let ip ← allocInode num_inodes type
      getInode ip
      lockInode ip
      modify fun s => s.setInode ip { s.inode ip with major := major, minor := minor, numLinks := 1 }
      if type = inodeDirectory then
        insertInode ip dotName ip
        insertInode ip dotdotName ip
        modify fun s => s.setInode dp { s.inode dp with numLinks := (s.inode dp).numLinks + 1 }
      insertInode dp name ip
      unlockInode dp
      putInode dp
      return some ip

/-- `sys_openat` with `O_CREAT`; `fd` is what `fdalloc` returns. -/
def sysOpenat (num_inodes : ℕ) (parent : Option (ℕ × List UInt8)) (found : Option ℕ)
    (fd : Option ℕ) : TableM ℤ := do
  match ← create num_inodes parent found inodeRegular 0 0 with
  | none => return -1
  | some ip =>
    match fd with
    | none =>
      unlockInode ip
      putInode ip
      return -1
    | some fd =>
      unlockInode ip
      return fd

/-- `sys_mkdirat` -/
def sysMkdirat (num_inodes : ℕ) (parent : Option (ℕ × List UInt8)) (found : Option ℕ) :
    TableM ℤ := do
  match ← create num_inodes parent found inodeDirectory 0 0 with
  | none => return -1
  | some ip =>
    unlockInode ip
    putInode ip
    return 0

/-- `sys_mknodat` -/
def sysMknodat (num_inodes : ℕ) (parent : Option (ℕ × List UInt8)) (found : Option ℕ)
    (ma mi : UInt16) : TableM ℤ := do
  match ← create num_inodes parent found inodeDevice ma mi with
  | none => return -1
  | some ip =>
    unlockInode ip
    putInode ip
    return 0

/-! ### What is owed -/

/-- What `nameiparent` and `namei` may return: an unlocked directory, and an unlocked inode.
Nobody has locked an inode that is free. -/
structure NamexReturns (s : InodeTable) (parent : Option (ℕ × List UInt8)) (found : Option ℕ) :
    Prop where
  parent : ∀ q ∈ parent, s.lock q.1 = 1 ∧ (s.inode q.1).type = inodeDirectory
  found : ∀ ip ∈ found, s.lock ip = 1
  free : ∀ i, (s.inode i).type = inodeInvalid → s.lock i = 1

/-- NULL, with all locks and references as before, or an inode that is locked once and has one
more reference; the parent has neither. -/
def Created (s : InodeTable) (parent : Option (ℕ × List UInt8)) (r : Option ℕ) (t : InodeTable) :
    Prop :=
  t.high = s.high ∧
  match r with
  | none => t.lock = s.lock ∧ t.rc = s.rc
  | some ip => (∀ q ∈ parent, ip ≠ q.1) ∧ s.lock ip = 1 ∧
    t.lock = Function.update s.lock ip 0 ∧ t.rc = Function.update s.rc ip (s.rc ip + 1)

/-- All locks are as they were, and none was posted above 1. -/
def LocksKept (s t : InodeTable) : Prop := t.lock = s.lock ∧ t.high = s.high

/-- There is a free inode, and the directory has room for the name. -/
def HasRoom (s : InodeTable) (num_inodes dp : ℕ) (name : List UInt8) : Prop :=
  freeInode s num_inodes ≠ none ∧ ((scan (s.inode dp).entries (fileName name)).1 ≠ 0 ∨
    (s.inode dp).entries.length * sizeofDirEntry + sizeofDirEntry ≤ inodeMaxBytes)

/-- The cases in which `create` does what it owes. -/
def CreateFits (s : InodeTable) (num_inodes : ℕ) (type : UInt16) :
    Option (ℕ × List UInt8) → Option ℕ → Prop
  | none, _ => True
  | some (dp, _), some ip =>
    ip ≠ dp ∧ (type = inodeDirectory ↔ (s.inode ip).type ≠ inodeDirectory)
  | some (dp, name), none => type ≠ inodeInvalid ∧ HasRoom s num_inodes dp name

/-! ### Locks and reference counts -/

namespace InodeTable

variable (s : InodeTable) (i : ℕ) (e : InodeRecord) (d : ℤ)

@[simp] theorem setInode_lock : (s.setInode i e).lock = s.lock := rfl

@[simp] theorem setInode_rc : (s.setInode i e).rc = s.rc := rfl

@[simp] theorem setInode_high : (s.setInode i e).high = s.high := rfl

@[simp] theorem addLock_lock : (s.addLock i d).lock = Function.update s.lock i (s.lock i + d) := rfl

@[simp] theorem addLock_inode : (s.addLock i d).inode = s.inode := rfl

@[simp] theorem addLock_rc : (s.addLock i d).rc = s.rc := rfl

@[simp] theorem addLock_high : (s.addLock i d).high = s.high := rfl

@[simp] theorem addRc_lock : (s.addRc i d).lock = s.lock := rfl

@[simp] theorem addRc_inode : (s.addRc i d).inode = s.inode := rfl

@[simp] theorem addRc_rc : (s.addRc i d).rc = Function.update s.rc i (s.rc i + d) := rfl

@[simp] theorem addRc_high : (s.addRc i d).high = s.high := rfl

@[simp] theorem unlock_lock : (s.unlock i).lock = Function.update s.lock i (s.lock i + 1) := rfl

@[simp] theorem unlock_inode : (s.unlock i).inode = s.inode := rfl

@[simp] theorem unlock_rc : (s.unlock i).rc = s.rc := rfl

@[simp] theorem unlock_high : (s.unlock i).high = (s.high || decide (1 < s.lock i + 1)) := rfl

@[simp] theorem put_lock : (s.put i).lock = s.lock := by
  unfold put
  split <;> rfl

@[simp] theorem put_rc : (s.put i).rc = Function.update s.rc i (s.rc i + -1) := by
  unfold put
  split <;> rfl

@[simp] theorem put_high : (s.put i).high = s.high := by
  unfold put
  split <;> rfl

end InodeTable

section Rules

variable {s : InodeTable} {i : ℕ} {Q : Unit → InodeTable → Prop} {E : CallStop → Prop}

theorem wp_lockInode : wp (lockInode i) Q E s ↔
    if s.lock i ≤ 0 then E .waits else Q () (s.addLock i (-1)) := by
  simp only [lockInode, wp_bind, wp_get]
  split
  · exact wp_throw
  · exact wp_set

@[simp] theorem wp_unlockInode : wp (unlockInode i) Q E s ↔ Q () (s.unlock i) := wp_modify

@[simp] theorem wp_getInode : wp (getInode i) Q E s ↔ Q () (s.addRc i 1) := wp_modify

@[simp] theorem wp_putInode : wp (putInode i) Q E s ↔ Q () (s.put i) := wp_modify

@[simp] theorem wp_reference_none : wp (reference none) Q E s ↔ Q () s := wp_pure

@[simp] theorem wp_reference_some : wp (reference (some i)) Q E s ↔ Q () (s.addRc i 1) := wp_modify

/-- `inode_insert` leaves locks and references alone, and stops where the directory has no
room. -/
theorem wp_insertInode {dp no : ℕ} {name : List UInt8}
    (htype : (s.inode dp).type = inodeDirectory) :
    wp (insertInode dp name no) Q E s ↔
      if (scan (s.inode dp).entries (fileName name)).1 ≠ 0 then Q () s
      else if inodeMaxBytes < (s.inode dp).entries.length * sizeofDirEntry + sizeofDirEntry then
        E .panic
      else Q () (s.setInode dp { s.inode dp with
        entries := (s.inode dp).entries ++ [.make name no] }) := by
  simp only [insertInode, wp_bind, wp_get]
  rw [if_neg (not_not.mpr htype)]
  split
  · rfl
  · split <;> rfl

end Rules

section Create

variable {s : InodeTable} {num_inodes dp ip : ℕ} {name : List UInt8}
  {type major minor : UInt16} {Q : Option ℕ → InodeTable → Prop} {E : CallStop → Prop}

theorem wp_create_none {found : Option ℕ} :
    wp (create num_inodes none found type major minor) Q E s ↔ Q none s := by
  simp only [create, Option.map_none, wp_bind, wp_reference_none, wp_pure]

/-- `namei` returns the parent. -/
theorem wp_create_self (hdp : s.lock dp = 1) :
    wp (create num_inodes (some (dp, name)) (some dp) type major minor) Q E s ↔ E .waits := by
  simp [create, wp_lockInode, hdp]

/-- Both inodes have been referenced, locked and unlocked. -/
def InodeTable.visit (s : InodeTable) (dp ip : ℕ) : InodeTable :=
  (((((s.addRc dp 1).addLock dp (-1)).addRc ip 1).addLock ip (-1)).unlock dp).unlock ip

theorem wp_create_found (hne : ip ≠ dp) (hdp : 0 < s.lock dp) (hip : 0 < s.lock ip) :
    wp (create num_inodes (some (dp, name)) (some ip) type major minor) Q E s ↔
      if type = inodeDirectory ↔ (s.inode ip).type ≠ inodeDirectory then
        Q none (((s.visit dp ip).put dp).put ip)
      else Q (some ip) ((s.visit dp ip).put dp) := by
  have hdp' : ¬s.lock dp ≤ 0 := by omega
  have hip' : ¬s.lock ip ≤ 0 := by omega
  simp only [create, Option.map_some, wp_bind, wp_reference_some, wp_lockInode,
    InodeTable.addRc_lock, InodeTable.addLock_lock, Function.update_of_ne hne, hdp', hip', if_false,
    wp_get, InodeTable.addRc_inode, InodeTable.addLock_inode]
  -- the three exits
  by_cases htype : type = inodeDirectory <;>
    by_cases hfound : (s.inode ip).type = inodeDirectory <;>
    simp [-bind_pure_comp, htype, hfound, InodeTable.visit]

end Create

namespace InodeTable

variable {s : InodeTable} {dp ip : ℕ}

@[simp] theorem visit_inode : (s.visit dp ip).inode = s.inode := rfl

/-- The locks are as before, and none was posted above 1. -/
theorem visit_lock (hne : ip ≠ dp) : (s.visit dp ip).lock = s.lock := by
  funext j
  simp only [visit, unlock_lock, addLock_lock, addRc_lock]
  by_cases hj : j = ip
  · subst hj
    simp [Function.update_of_ne hne]
  · by_cases hj' : j = dp
    · subst hj'
      simp [Function.update_of_ne hj]
    · simp [hj, hj']

theorem visit_high (hne : ip ≠ dp) (hdp : s.lock dp = 1) (hip : s.lock ip = 1) :
    (s.visit dp ip).high = s.high := by
  simp [visit, hdp, hip, hne, hne.symm]

theorem visit_rc (hne : ip ≠ dp) : (s.visit dp ip).rc =
    Function.update (Function.update s.rc dp (s.rc dp + 1)) ip (s.rc ip + 1) := by
  simp only [visit, unlock_rc, addLock_rc, addRc_rc, Function.update_of_ne hne]

theorem put_visit_rc (hne : ip ≠ dp) :
    ((s.visit dp ip).put dp).rc = Function.update s.rc ip (s.rc ip + 1) := by
  rw [put_rc, visit_rc hne]
  funext j
  by_cases hj : j = dp
  · subst hj
    simp [Function.update_of_ne hne.symm]
  · by_cases hj' : j = ip
    · subst hj'
      simp [hj]
    · simp [hj, hj']

end InodeTable

/-! ### A new inode -/

theorem freeInode_spec {s : InodeTable} {num_inodes i : ℕ} (h : freeInode s num_inodes = some i) :
    (s.inode i).type = inodeInvalid := by
  have hfound := List.find?_some (p := fun i => decide (0 < i ∧ (s.inode i).type = inodeInvalid)) h
  exact (of_decide_eq_true hfound).2

theorem DirEntry.key_make (name : List UInt8) (no : ℕ) :
    (DirEntry.make name no).key = fileName name := DirEntry.key_strncpy _ _

/-- `..` is not found in a directory that has only got `.` yet. -/
theorem scan_dot (i : ℕ) : (scan [.make dotName i] (fileName dotdotName)).1 = 0 := by
  have hkey : hasKey [.make dotName i] (fileName dotdotName) 0 = false := by
    rw [hasKey, decide_eq_false_iff_not]
    show ¬some (DirEntry.key _) = some _
    rw [DirEntry.key_make]
    decide
  unfold scan
  cases h : firstIndex (hasKey [.make dotName i] (fileName dotdotName))
      [DirEntry.make dotName i].length with
  | none => rfl
  | some j =>
    obtain ⟨hj, htest, -⟩ := firstIndex_eq_some h
    obtain rfl : j = 0 := Nat.lt_one_iff.mp hj
    rw [hkey] at htest
    cases htest

namespace InodeTable

/-- The new inode is referenced and locked, and so is its parent. -/
def fresh (s : InodeTable) (dp i : ℕ) (type major minor : UInt16) : InodeTable :=
  ((((((s.addRc dp 1).addLock dp (-1)).setInode i ⟨type, 0, 0, 0, []⟩).addRc i 1).addLock i
    (-1)).setInode i ⟨type, major, minor, 1, []⟩)

/-- A directory gets its two entries, and the parent a link. -/
def fillDirectory (s : InodeTable) (dp i : ℕ) : InodeTable :=
  let t := s.setInode i { s.inode i with entries := [.make dotName i, .make dotdotName i] }
  t.setInode dp { t.inode dp with numLinks := (t.inode dp).numLinks + 1 }

/-- The parent gets an entry for the new inode, unless the name is there. -/
def addEntry (s : InodeTable) (dp : ℕ) (name : List UInt8) (i : ℕ) : InodeTable :=
  if (scan (s.inode dp).entries (fileName name)).1 ≠ 0 then s
  else s.setInode dp { s.inode dp with entries := (s.inode dp).entries ++ [.make name i] }

/-- What `create` leaves when it has made an inode. -/
def created (s : InodeTable) (dp : ℕ) (name : List UInt8) (i : ℕ) (type major minor : UInt16) :
    InodeTable :=
  let t := s.fresh dp i type major minor
  let u := if type = inodeDirectory then t.fillDirectory dp i else t
  ((u.addEntry dp name i).unlock dp).put dp

end InodeTable

namespace InodeTable

variable {s : InodeTable} {dp i : ℕ} {type major minor : UInt16}

theorem fresh_self (s : InodeTable) (dp i : ℕ) (type major minor : UInt16) :
    (s.fresh dp i type major minor).inode i =
      ⟨type, major, minor, 1, []⟩ := Function.update_self _ _ _

theorem fresh_parent (hne : i ≠ dp) : (s.fresh dp i type major minor).inode dp = s.inode dp := by
  simp [fresh, setInode, addLock, addRc, Function.update_of_ne hne.symm]

theorem fillDirectory_parent (hne : i ≠ dp) : (s.fillDirectory dp i).inode dp =
    { s.inode dp with numLinks := (s.inode dp).numLinks + 1 } := by
  simp [fillDirectory, setInode, Function.update_of_ne hne.symm]

end InodeTable

section Fresh

variable {s : InodeTable} {num_inodes dp i : ℕ} {name : List UInt8}
  {type major minor : UInt16} {Q : Option ℕ → InodeTable → Prop} {E : CallStop → Prop}

theorem wp_allocInode {R : ℕ → InodeTable → Prop} : wp (allocInode num_inodes type) R E s ↔
    if type = inodeInvalid then E .panic
    else match freeInode s num_inodes with
      | none => E .panic
      | some i => R i (s.setInode i ⟨type, 0, 0, 0, []⟩) := by
  unfold allocInode
  split
  · rfl
  · rw [wp_bind, wp_get]
    split <;> rfl

/-- The two entries of a new directory. -/
theorem wp_insert_dots {R : Unit → InodeTable → Prop} (htype : (s.inode i).type = inodeDirectory)
    (hnil : (s.inode i).entries = []) :
    wp (insertInode i dotName i) (fun _ t => wp (insertInode i dotdotName i) R E t) E s ↔
      R () (s.setInode i { s.inode i with
        entries := [.make dotName i, .make dotdotName i] }) := by
  have hset : ∀ (u : InodeTable) (e f : InodeRecord),
      (u.setInode i e).setInode i f = u.setInode i f := fun u e f => by
    simp [InodeTable.setInode, Function.update_idem]
  have hself : ∀ (u : InodeTable) (e : InodeRecord), (u.setInode i e).inode i = e :=
    fun u e => Function.update_self _ _ _
  rw [wp_insertInode htype, hnil, if_neg (by simp [scan, firstIndex, firstFrom, found]),
    if_neg (by decide), List.nil_append, wp_insertInode (by rw [hself]; exact htype), hself]
  simp only [hset]
  have hroom : ¬inodeMaxBytes < 1 * sizeofDirEntry + sizeofDirEntry := by decide
  rw [if_neg (by rw [scan_dot]; simp)]
  exact iff_of_eq (if_neg hroom)

/-- The entry in the parent, and the end of `create`. -/
theorem wp_addEntry (htype : (s.inode dp).type = inodeDirectory) :
    wp (insertInode dp name i) (fun _ t => Q (some i) ((t.unlock dp).put dp)) E s ↔
      if (scan (s.inode dp).entries (fileName name)).1 = 0 ∧
          inodeMaxBytes < (s.inode dp).entries.length * sizeofDirEntry + sizeofDirEntry then
        E .panic
      else Q (some i) (((s.addEntry dp name i).unlock dp).put dp) := by
  rw [wp_insertInode htype]
  unfold InodeTable.addEntry
  by_cases hscan : (scan (s.inode dp).entries (fileName name)).1 = 0
  · simp only [hscan, ne_eq, not_true_eq_false, if_false, true_and]
  · simp only [hscan, ne_eq, not_false_eq_true, if_true, false_and, if_false]

theorem wp_create_fresh (hdp : 0 < s.lock dp) (hdir : (s.inode dp).type = inodeDirectory)
    (hfree : ∀ j, (s.inode j).type = inodeInvalid → 0 < s.lock j) :
    wp (create num_inodes (some (dp, name)) none type major minor) Q E s ↔
      if type = inodeInvalid then E .panic
      else match freeInode s num_inodes with
        | none => E .panic
        | some i =>
          if (scan (s.inode dp).entries (fileName name)).1 = 0 ∧
              inodeMaxBytes < (s.inode dp).entries.length * sizeofDirEntry + sizeofDirEntry then
            E .panic
          else Q (some i) (s.created dp name i type major minor) := by
  have hdp' : ¬s.lock dp ≤ 0 := by omega
  have hsame : freeInode ((s.addRc dp 1).addLock dp (-1)) num_inodes = freeInode s num_inodes := rfl
  simp only [create, Option.map_some, wp_bind, wp_reference_some, wp_reference_none, wp_lockInode,
    InodeTable.addRc_lock, hdp', if_false, wp_allocInode, hsame]
  by_cases htype : type = inodeInvalid
  · rw [if_pos htype, if_pos htype]
  · rw [if_neg htype, if_neg htype]
    cases hfound : freeInode s num_inodes with
    | none => rfl
    | some i =>
      -- the new inode is not the parent, and nobody has locked it
      have hinvalid := freeInode_spec hfound
      have hne : i ≠ dp := by
        rintro rfl
        rw [hdir] at hinvalid
        cases hinvalid
      have hi : ¬s.lock i ≤ 0 := not_le.mpr (hfree i hinvalid)
      have hzero : (((((s.addRc dp 1).addLock dp (-1)).setInode i ⟨type, 0, 0, 0, []⟩).addRc i
          1).addLock i (-1)).inode i = ⟨type, 0, 0, 0, []⟩ := Function.update_self _ _ _
      simp only [wp_getInode, InodeTable.addRc_lock, InodeTable.setInode_lock,
        InodeTable.addLock_lock, Function.update_of_ne hne, hi, if_false, wp_modify, hzero]
      show wp _ Q E (s.fresh dp i type major minor) ↔ _
      have hself := InodeTable.fresh_self s dp i type major minor
      have hparent : (s.fresh dp i type major minor).inode dp = s.inode dp :=
        InodeTable.fresh_parent hne
      unfold InodeTable.created
      by_cases hdirectory : type = inodeDirectory
      · simp only [if_pos hdirectory, wp_bind, wp_modify, wp_unlockInode, wp_putInode, wp_pure]
        rw [wp_insert_dots (by rw [hself]; exact hdirectory) (by rw [hself])]
        show wp _ _ E ((s.fresh dp i type major minor).fillDirectory dp i) ↔ _
        have hentries := InodeTable.fillDirectory_parent (s := s.fresh dp i type major minor) hne
        rw [wp_addEntry (by rw [hentries, hparent]; exact hdir), hentries, hparent]
      · simp only [if_neg hdirectory, wp_bind, wp_unlockInode, wp_putInode, wp_pure]
        rw [wp_addEntry (by rw [hparent]; exact hdir), hparent]

end Fresh

namespace InodeTable

variable {s : InodeTable} {dp i : ℕ} {name : List UInt8} {type major minor : UInt16}

@[simp] theorem addEntry_lock : (s.addEntry dp name i).lock = s.lock := by
  unfold addEntry
  split <;> rfl

@[simp] theorem addEntry_rc : (s.addEntry dp name i).rc = s.rc := by
  unfold addEntry
  split <;> rfl

@[simp] theorem addEntry_high : (s.addEntry dp name i).high = s.high := by
  unfold addEntry
  split <;> rfl

/-- The entries do not matter for locks and references. -/
theorem created_eq : ∃ u : InodeTable, s.created dp name i type major minor = (u.unlock dp).put dp ∧
    u.lock = (s.fresh dp i type major minor).lock ∧ u.rc = (s.fresh dp i type major minor).rc ∧
    u.high = s.high := by
  dsimp only [created]
  by_cases htype : type = inodeDirectory
  · rw [if_pos htype]
    exact ⟨_, rfl, addEntry_lock, addEntry_rc, addEntry_high⟩
  · rw [if_neg htype]
    exact ⟨_, rfl, addEntry_lock, addEntry_rc, addEntry_high⟩

theorem created_spec (name : List UInt8) (type major minor : UInt16) (hne : i ≠ dp) (hdp : s.lock dp = 1) (hi : s.lock i = 1) :
    (s.created dp name i type major minor).lock = Function.update s.lock i 0 ∧
    (s.created dp name i type major minor).rc = Function.update s.rc i (s.rc i + 1) ∧
    (s.created dp name i type major minor).high = s.high := by
  obtain ⟨u, hu, hlock, hrc, hhigh⟩ : ∃ u : InodeTable, s.created dp name i type major minor =
      (u.unlock dp).put dp ∧ _ := created_eq
  rw [hu]
  have hlock' : u.lock = Function.update (Function.update s.lock dp 0) i 0 := by
    rw [hlock]
    simp [fresh, hne, hdp, hi]
  have hrc' : u.rc = Function.update (Function.update s.rc dp (s.rc dp + 1)) i (s.rc i + 1) := by
    rw [hrc]
    simp [fresh, hne]
  refine ⟨?_, ?_, ?_⟩
  · rw [put_lock, unlock_lock, hlock']
    funext j
    by_cases hj : j = dp
    · subst hj
      simp [hdp, hne.symm]
    · by_cases hj' : j = i
      · subst hj'
        simp [hj]
      · simp [hj, hj']
  · rw [put_rc, unlock_rc, hrc']
    funext j
    by_cases hj : j = dp
    · subst hj
      simp [hne.symm]
    · by_cases hj' : j = i
      · subst hj'
        simp [hj]
      · simp [hj, hj']
  · rw [put_high, unlock_high, hhigh, hlock']
    simp [hne.symm]

end InodeTable

section Owes

variable {s : InodeTable} {num_inodes : ℕ} {parent : Option (ℕ × List UInt8)} {found : Option ℕ}
  {type major minor : UInt16}

theorem NamexReturns.free_pos (h : NamexReturns s parent found) (i : ℕ)
    (hi : (s.inode i).type = inodeInvalid) : 0 < s.lock i := by
  rw [h.free i hi]
  decide

/-- When the cases fit, `create` returns NULL, or an inode that was unlocked. -/
theorem create_of_fits (h : NamexReturns s parent found)
    (hfits : CreateFits s num_inodes type parent found) :
    wp (create num_inodes parent found type major minor) (Created s parent) (fun _ => False) s := by
  cases parent with
  | none =>
    rw [wp_create_none]
    exact ⟨rfl, rfl, rfl⟩
  | some q =>
    obtain ⟨dp, name⟩ := q
    obtain ⟨hdp, hdir⟩ : s.lock dp = 1 ∧ (s.inode dp).type = inodeDirectory :=
      h.parent (dp, name) rfl
    cases found with
    | some ip =>
      obtain ⟨hne, hiff⟩ := hfits
      have hip := h.found ip rfl
      rw [wp_create_found hne (by omega) (by omega), if_pos hiff]
      refine ⟨?_, ?_, ?_⟩
      · rw [InodeTable.put_high, InodeTable.put_high, InodeTable.visit_high hne hdp hip]
      · rw [InodeTable.put_lock, InodeTable.put_lock, InodeTable.visit_lock hne]
      · rw [InodeTable.put_rc, InodeTable.put_visit_rc hne]
        simp
    | none =>
      obtain ⟨htype, hfree, hroom⟩ := hfits
      rw [wp_create_fresh (by omega) hdir h.free_pos, if_neg htype]
      cases hfound : freeInode s num_inodes with
      | none => exact absurd hfound hfree
      | some i =>
        have hinvalid := freeInode_spec hfound
        have hne : i ≠ dp := by
          rintro rfl
          rw [hdir] at hinvalid
          cases hinvalid
        have hi := h.free i hinvalid
        obtain ⟨hlock, hrc, hhigh⟩ :=
          InodeTable.created_spec name type major minor hne hdp hi
        show if _ then False else _
        rw [if_neg (by omega)]
        exact ⟨hhigh, fun q hq => by cases hq; exact hne, hi, hlock, hrc⟩

/-- What holds of every result that is right, and of none that is unlocked, says when the cases
fit. -/
theorem wp_create_iff {Q : Option ℕ → InodeTable → Prop} (h : NamexReturns s parent found)
    (hgood : ∀ r t, Created s parent r t → Q r t)
    (hbad : ∀ ip t, s.lock ip = 1 → t.lock = s.lock → ¬Q (some ip) t) :
    wp (create num_inodes parent found type major minor) Q (fun _ => False) s ↔
      CreateFits s num_inodes type parent found := by
  refine ⟨fun hwp => ?_, fun hfits => wp_mono (create_of_fits h hfits) hgood fun _ he => he⟩
  cases parent with
  | none => trivial
  | some q =>
    obtain ⟨dp, name⟩ := q
    obtain ⟨hdp, hdir⟩ : s.lock dp = 1 ∧ (s.inode dp).type = inodeDirectory :=
      h.parent (dp, name) rfl
    cases found with
    | some ip =>
      have hip := h.found ip rfl
      by_cases hne : ip = dp
      · -- the second lock is never got
        subst hne
        exact absurd ((wp_create_self hdp).mp hwp) id
      · refine ⟨hne, ?_⟩
        by_contra hiff
        rw [wp_create_found hne (by omega) (by omega), if_neg hiff] at hwp
        refine hbad ip _ hip ?_ hwp
        rw [InodeTable.put_lock, InodeTable.visit_lock hne]
    | none =>
      rw [wp_create_fresh (by omega) hdir h.free_pos] at hwp
      by_cases htype : type = inodeInvalid
      · rw [if_pos htype] at hwp
        exact hwp.elim
      · rw [if_neg htype] at hwp
        refine ⟨htype, ?_⟩
        cases hfound : freeInode s num_inodes with
        | none =>
          rw [hfound] at hwp
          exact hwp.elim
        | some i =>
          rw [hfound] at hwp
          refine ⟨by simp [hfound], ?_⟩
          by_contra hroom
          have hfull : (scan (s.inode dp).entries (fileName name)).1 = 0 ∧
              inodeMaxBytes < (s.inode dp).entries.length * sizeofDirEntry + sizeofDirEntry := by
            omega
          simp only [hfull, and_self, if_true] at hwp

/-- `unlock` after a result that is right. -/
theorem Created.unlock {ip : ℕ} {t : InodeTable} (h : Created s parent (some ip) t) :
    LocksKept s (t.unlock ip) := by
  obtain ⟨hhigh, -, hip, hlock, -⟩ := h
  refine ⟨?_, ?_⟩
  · rw [InodeTable.unlock_lock, hlock, Function.update_self, Function.update_idem, zero_add, ← hip,
      Function.update_eq_self]
  · rw [InodeTable.unlock_high, hlock, Function.update_self, hhigh]
    simp

/-- `unlock` of an inode that is not locked. -/
theorem not_locksKept_unlock {ip : ℕ} {t : InodeTable} (hip : s.lock ip = 1)
    (ht : t.lock = s.lock) : ¬LocksKept s (t.unlock ip) := by
  rintro ⟨hlock, -⟩
  have hat := congrFun hlock ip
  rw [InodeTable.unlock_lock, Function.update_self, ht, hip] at hat
  cases hat

theorem locksKept_put {i : ℕ} {t : InodeTable} : LocksKept s (t.put i) ↔ LocksKept s t := by
  unfold LocksKept
  rw [InodeTable.put_lock, InodeTable.put_high]

/-- A caller that unlocks what `create` returned, and may put it. -/
theorem wp_caller_iff {rest : Option ℕ → TableM ℤ} (h : NamexReturns s parent found)
    (hnone : ∀ t, wp (rest none) (fun _ t => LocksKept s t) (fun _ => False) t ↔ LocksKept s t)
    (hsome : ∀ ip t, wp (rest (some ip)) (fun _ t => LocksKept s t) (fun _ => False) t ↔
      LocksKept s (t.unlock ip)) :
    wp (do rest (← create num_inodes parent found type major minor)) (fun _ t => LocksKept s t)
      (fun _ => False) s ↔ CreateFits s num_inodes type parent found := by
  rw [wp_bind]
  refine wp_create_iff h (fun r t hcreated => ?_) fun ip t hip ht hwp => ?_
  · cases r with
    | none => exact (hnone t).mpr ⟨hcreated.2.1, hcreated.1⟩
    | some ip => exact (hsome ip t).mpr hcreated.unlock
  · exact not_locksKept_unlock hip ht ((hsome ip t).mp hwp)

end Owes

/-- **`create` returns what it owes exactly in these cases**, and then its callers leave the
locks as they were. -/
theorem create_owes (s : InodeTable) (num_inodes : ℕ) (parent : Option (ℕ × List UInt8))
    (found : Option ℕ) (h : NamexReturns s parent found) :
    (∀ type major minor, wp (create num_inodes parent found type major minor) (Created s parent)
      (fun _ => False) s ↔ CreateFits s num_inodes type parent found) ∧
    (∀ fd, wp (sysOpenat num_inodes parent found fd) (fun _ t => LocksKept s t)
      (fun _ => False) s ↔ CreateFits s num_inodes inodeRegular parent found) ∧
    (wp (sysMkdirat num_inodes parent found) (fun _ t => LocksKept s t)
      (fun _ => False) s ↔ CreateFits s num_inodes inodeDirectory parent found) ∧
    ∀ ma mi, wp (sysMknodat num_inodes parent found ma mi) (fun _ t => LocksKept s t)
      (fun _ => False) s ↔ CreateFits s num_inodes inodeDevice parent found := by
  refine ⟨fun type major minor => ?_, fun fd => ?_, ?_, fun ma mi => ?_⟩
  · refine wp_create_iff h (fun _ _ hcreated => hcreated) fun ip t hip ht hcreated => ?_
    -- it is not locked
    have hlock := congrFun hcreated.2.2.2.1 ip
    rw [ht, hip, Function.update_self] at hlock
    cases hlock
  · refine wp_caller_iff h (fun t => Iff.rfl) fun ip t => ?_
    cases fd with
    | none => exact locksKept_put
    | some fd => exact Iff.rfl
  · exact wp_caller_iff h (fun t => Iff.rfl) fun ip t => locksKept_put
  · exact wp_caller_iff h (fun t => Iff.rfl) fun ip t => locksKept_put

/-- Inode 1 is the root, inode 2 a file in it. -/
def InodeTable.two : InodeTable where
  inode i := if i = 1 then
      ⟨inodeDirectory, 0, 0, 1, [.make dotName 1, .make dotdotName 1, .make [97] 2]⟩
    else if i = 2 then ⟨inodeRegular, 0, 0, 1, []⟩
    else ⟨inodeInvalid, 0, 0, 0, []⟩
  lock _ := 1
  rc i := if i = 1 then 1 else 0
  high := false

theorem InodeTable.namexReturns_two {name : List UInt8} {found : Option ℕ} :
    NamexReturns .two (some (1, name)) found :=
  ⟨fun q hq => by cases hq; exact ⟨rfl, rfl⟩, fun _ _ => rfl, fun _ _ => rfl⟩

/-- A new file. -/
theorem create_owes_two : wp (create 8 (some (1, [98])) none inodeRegular 0 0)
    (Created .two (some (1, [98]))) (fun _ => False) .two := by
  have hroom : HasRoom .two 8 1 [98] := ⟨by decide, .inr (by decide)⟩
  exact ((create_owes .two 8 (some (1, [98])) none InodeTable.namexReturns_two).1
    inodeRegular 0 0).mpr ⟨by decide, hroom⟩

/-- **A file that exists is returned without its lock**, and `openat` posts it to 2. -/
theorem create_unlocked : NamexReturns .two (some (1, [97])) (some 2) ∧
    wp (create 8 (some (1, [97])) (some 2) inodeRegular 0 0)
      (fun r t => r = some 2 ∧ t.lock 2 = 1 ∧ ¬Created .two (some (1, [97])) r t)
      (fun _ => False) .two ∧
    wp (sysOpenat 8 (some (1, [97])) (some 2) (some 3)) (fun _ t => t.lock 2 = 2 ∧ t.high = true)
      (fun _ => False) .two := by
  refine ⟨InodeTable.namexReturns_two, ⟨rfl, rfl, fun hcreated => ?_⟩, ⟨rfl, rfl⟩⟩
  have hlock := congrFun hcreated.2.2.2.1 2
  cases hlock

end OsLab
