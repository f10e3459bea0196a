/-
The file table and the descriptor tables (`fs/file.c`, `fs/pipe.c`, `kernel/sysfile.c`).

A state has `ftable` and the descriptor table of every process; a step is one call of
`openat`, `dup`, `close` or `pipe2`.  What lies behind a file (the inode, the pipe) is not
modelled.  What a call gets from elsewhere is in its label: the inode that `create` or
`namei` returned, the pipe that `kalloc` returned.

* `FileState.Refs` — `ref` counts the slots that point to a file and the references of
  the call in progress; each function keeps it;
* `refs_exact` — so the counts are right after every call, and calls that fail leave the
  descriptors alone, exactly as long as `pipe2` does not find one slot left;
* `pipe2_stale` — a run where it does.
-/
import OsLab.Lib.System
import OsLab.Lib.Search
import Mathlib.Data.Finset.Card
import Mathlib.Data.Finset.Prod
import Mathlib.Logic.Function.Basic
import Mathlib.Algebra.Order.Ring.Int

namespace OsLab

/-- `NFILE` -/
def nfile : ℕ := 65536

/-- `NOFILE` -/
def nofile : ℕ := 1024

/-- `FD_NONE`, `FD_PIPE`, `FD_INODE` -/
inductive FileType
  | none | pipe | inode
  deriving DecidableEq, Repr

/-- `struct file` -/
structure File where
  type : FileType
  ref : ℤ
  readable : Bool
  writable : Bool
  /-- `pipe` or `ip` -/
  obj : ℕ
  off : ℕ
  deriving DecidableEq, Repr

/-- `ftable`, and `p->oftable.ofiles` of every process. -/
structure FileState where
  files : ℕ → File
  ofiles : ℕ → ℕ → Option ℕ

/-- The system calls. -/
inductive FileCall
  /-- `ip` is the inode, `none` when an earlier step fails -/
  | openat (p omode : ℕ) (ip : Option ℕ)
  | dup (p : ℕ) (fd : ℤ)
  | close (p : ℕ) (fd : ℤ)
  /-- `pipe` is the result of `kalloc` -/
  | pipe2 (p : ℕ) (pipe : Option ℕ)

namespace FileState

def setFile (s : FileState) (f : ℕ) (file : File) : FileState :=
  { s with files := Function.update s.files f file }

def setSlot (s : FileState) (p fd : ℕ) (f : Option ℕ) : FileState :=
  { s with ofiles := Function.update s.ofiles p (Function.update (s.ofiles p) fd f) }

/-- `file_alloc` -/
def fileAlloc (s : FileState) : Option (ℕ × FileState) :=
  (firstIndex (fun i => (s.files i).ref = 0) nfile).map fun f =>
    (f, s.setFile f { s.files f with ref := 1 })

/-- `file_dup` -/
def fileDup (s : FileState) (f : ℕ) : FileState :=
  if (s.files f).ref < nfile then s.setFile f { s.files f with ref := (s.files f).ref + 1 } else s

/-- `file_close` -/
def fileClose (s : FileState) (f : ℕ) : FileState :=
  let file := { s.files f with ref := (s.files f).ref - 1 }
  s.setFile f (if file.ref = 0 then { file with type := .none } else file)

/-- `fd2file` -/
def fd2file (s : FileState) (p : ℕ) (fd : ℤ) : Option ℕ :=
  if fd < 0 ∨ nofile ≤ fd then none else s.ofiles p fd.toNat

/-- `fdalloc` -/
def fdalloc (s : FileState) (p f : ℕ) : Option (ℕ × FileState) :=
  (firstIndex (fun fd => s.ofiles p fd = none) nofile).map fun fd => (fd, s.setSlot p fd (some f))

/-- `sys_openat` -/
def openat (s : FileState) (p omode : ℕ) (ip : Option ℕ) : ℤ × FileState :=
  match ip with
  | none => (-1, s)
  | some ip =>
    match s.fileAlloc with
    | none => (-1, s)
    | some (f, s) =>
      match s.fdalloc p f with
      | none => (-1, s.fileClose f)
      | some (fd, s) => (fd, s.setFile f { s.files f with
          type := .inode
          obj := ip
          off := 0
          readable := !omode.testBit 0
          writable := omode.testBit 0 || omode.testBit 1 })

/-- `sys_dup` -/
def dup (s : FileState) (p : ℕ) (fd : ℤ) : ℤ × FileState :=
  match s.fd2file p fd with
  | none => (-1, s)
  | some f =>
    match s.fdalloc p f with
    | none => (-1, s)
    | some (fd, s) => (fd, s.fileDup f)

/-- `sys_close` -/
def close (s : FileState) (p : ℕ) (fd : ℤ) : ℤ × FileState :=
  match s.fd2file p fd with
  | none => (-1, s)
  | some f => (0, (s.fileClose f).setSlot p fd.toNat none)

/-- `pipeAlloc`; the files, when it does not fail. -/
def pipeAlloc (s : FileState) (pipe : Option ℕ) : Option (ℕ × ℕ) × FileState :=
  match pipe with
  | none => (none, s)
  | some pipe =>
    match s.fileAlloc with
    | none =>
      match s.fileAlloc with
      | none => (none, s)
      | some (f1, s) => (none, s.fileClose f1)
    | some (f0, s) =>
      match s.fileAlloc with
      | none => (none, s.fileClose f0)
      | some (f1, s) =>
        let s := s.setFile f0 { s.files f0 with
          type := .pipe, readable := true, writable := false, obj := pipe }
        (some (f0, f1), s.setFile f1 { s.files f1 with
          type := .pipe, readable := false, writable := true, obj := pipe })

/-- `sys_pipe2` -/
def pipe2 (s : FileState) (p : ℕ) (pipe : Option ℕ) : ℤ × FileState :=
  match s.pipeAlloc pipe with
  | (none, s) => (-1, s)
  | (some (rf, wf), s) =>
    match s.fdalloc p rf with
    | none => (-1, (s.fileClose rf).fileClose wf)
    | some (_, s) =>
      match s.fdalloc p wf with
      | none => (-1, (s.fileClose rf).fileClose wf)
      | some (_, s) => (0, s)

/-- One system call and the value that it returns. -/
def call (s : FileState) : FileCall → ℤ × FileState
  | .openat p omode ip => s.openat p omode ip
  | .dup p fd => s.dup p fd
  | .close p fd => s.close p fd
  | .pipe2 p pipe => s.pipe2 p pipe

end FileState

/-- Any processes, after `init_ftable`. -/
def fileSystem : System FileState FileCall where
  init s := (∀ f, (s.files f).ref = 0) ∧ ∀ p fd, s.ofiles p fd = none
  step s l := some (s.call l).2

namespace FileState

/-- `ref` counts the slots that point to the file. -/
def RefsExact (s : FileState) : Prop :=
  ∀ f, ∃ slots : Finset (ℕ × ℕ), (∀ x, x ∈ slots ↔ s.ofiles x.1 x.2 = some f) ∧
    (s.files f).ref = slots.card

/-- What a call has to keep. -/
def CallOk (s : FileState) (l : FileCall) : Prop :=
  (s.call l).2.RefsExact ∧ ((s.call l).1 = -1 → (s.call l).2.ofiles = s.ofiles)

/-- Process `p` has one descriptor left. -/
def OneSlotLeft (s : FileState) (p : ℕ) : Prop :=
  ∃ fd < nofile, s.ofiles p fd = none ∧ ∀ fd' < nofile, s.ofiles p fd' = none → fd' = fd

/-- There are two files for a pipe. -/
def TwoFilesFree (s : FileState) : Prop :=
  ∃ f < nfile, ∃ g < nfile, f ≠ g ∧ (s.files f).ref = 0 ∧ (s.files g).ref = 0

/-- A `pipe2` that gets its pipe and its files does not find one descriptor left. -/
def Roomy (s : FileState) : FileCall → Prop
  | .pipe2 p (some _) => s.TwoFilesFree → ¬ s.OneSlotLeft p
  | _ => True

variable {s t : FileState} {p fd f g : ℕ} {e : ℕ → ℕ}

/-- The slots that point to a file, and the references `e` of the call in progress. -/
structure Refs (s : FileState) (e : ℕ → ℕ) : Prop where
  count : ∀ f, ∃ slots : Finset (ℕ × ℕ), (∀ x, x ∈ slots ↔ s.ofiles x.1 x.2 = some f) ∧
    (s.files f).ref = slots.card + e f
  /-- files are not shared between processes -/
  owner : ∀ f p q fd fd', s.ofiles p fd = some f → s.ofiles q fd' = some f → p = q
  fd_lt : ∀ p fd, s.ofiles p fd ≠ none → fd < nofile
  file_lt : ∀ p fd f, s.ofiles p fd = some f → f < nfile

theorem refs_init (h : fileSystem.init s) : s.Refs 0 := by
  refine ⟨fun f => ⟨∅, fun x => ?_, ?_⟩, fun f p q fd fd' hp => ?_, fun p fd hp => ?_,
    fun p fd f hp => ?_⟩
  · simp [h.2]
  · simp [h.1]
  · rw [h.2] at hp
    cases hp
  · exact absurd (h.2 p fd) hp
  · rw [h.2] at hp
    cases hp

theorem Refs.exact (h : s.Refs 0) : s.RefsExact := by
  intro f
  obtain ⟨slots, hslots, href⟩ := h.count f
  exact ⟨slots, hslots, by simpa using href⟩

/-- A file changes, and its count with the references of the call. -/
theorem Refs.setFile {file : File} {e' : ℕ → ℕ} (h : s.Refs e)
    (href : file.ref - e' f = (s.files f).ref - e f) (he : ∀ g, g ≠ f → e' g = e g) :
    (s.setFile f file).Refs e' := by
  refine ⟨fun g => ?_, h.owner, h.fd_lt, h.file_lt⟩
  obtain ⟨slots, hslots, hcount⟩ := h.count g
  refine ⟨slots, hslots, ?_⟩
  by_cases hg : g = f
  · subst hg
    simp only [FileState.setFile, Function.update_self]
    omega
  · simp only [FileState.setFile, Function.update_of_ne hg, he g hg]
    exact hcount

/-- A file with count 0 has no slots and no references. -/
theorem Refs.free (h : s.Refs e) (hf : (s.files f).ref = 0) :
    e f = 0 ∧ ∀ p fd, s.ofiles p fd ≠ some f := by
  obtain ⟨slots, hslots, href⟩ := h.count f
  have hcard : slots.card = 0 := by omega
  refine ⟨by omega, fun p fd hp => ?_⟩
  have hmem := (hslots (p, fd)).mpr hp
  rw [Finset.card_eq_zero.mp hcard] at hmem
  exact absurd hmem (Finset.notMem_empty _)

/-- `file_alloc` gives the call a reference to a file that nobody has. -/
theorem Refs.fileAlloc (h : s.Refs e) (hs : s.fileAlloc = some (f, t)) :
    t.Refs (Function.update e f (e f + 1)) ∧ t.ofiles = s.ofiles ∧ f < nfile ∧
      (s.files f).ref = 0 ∧ ∀ g, g ≠ f → t.files g = s.files g := by
  obtain ⟨i, hi, heq⟩ := Option.map_eq_some_iff.mp hs
  obtain ⟨rfl, rfl⟩ := Prod.mk.inj heq
  obtain ⟨hlt, htest, -⟩ := firstIndex_eq_some hi
  have href : (s.files i).ref = 0 := of_decide_eq_true htest
  refine ⟨h.setFile ?_ fun g hg => Function.update_of_ne hg _ _, rfl, hlt, href, fun g hg => ?_⟩
  · simp only [Function.update_self, href]
    push_cast
    omega
  · exact Function.update_of_ne hg _ _

theorem fileAlloc_eq_none (hs : s.fileAlloc = none) (hf : f < nfile) : (s.files f).ref ≠ 0 := by
  have hnone := Option.map_eq_none_iff.mp hs
  exact of_decide_eq_false (firstIndex_eq_none hnone hf)

/-- `file_close` takes a reference of the call. -/
theorem Refs.fileClose (h : s.Refs e) (he : 0 < e f) :
    (s.fileClose f).Refs (Function.update e f (e f - 1)) := by
  refine h.setFile ?_ fun g hg => Function.update_of_ne hg _ _
  rw [Function.update_self]
  split
  · dsimp only
    omega
  · dsimp only
    omega

theorem ofiles_setSlot (v : Option ℕ) (q fd' : ℕ) : (s.setSlot p fd v).ofiles q fd'
    = if q = p ∧ fd' = fd then v else s.ofiles q fd' := by
  by_cases hq : q = p
  · subst hq
    by_cases hfd : fd' = fd
    · simp [setSlot, hfd]
    · simp [setSlot, hfd]
  · simp [setSlot, hq]

theorem fdalloc_eq_some (hs : s.fdalloc p f = some (fd, t)) :
    fd < nofile ∧ s.ofiles p fd = none ∧ (∀ fd' < fd, s.ofiles p fd' ≠ none) ∧
      t = s.setSlot p fd (some f) := by
  obtain ⟨i, hi, heq⟩ := Option.map_eq_some_iff.mp hs
  obtain ⟨rfl, rfl⟩ := Prod.mk.inj heq
  obtain ⟨hlt, htest, hbefore⟩ := firstIndex_eq_some hi
  exact ⟨hlt, of_decide_eq_true htest, fun j hj => of_decide_eq_false (hbefore j hj), rfl⟩

theorem fdalloc_eq_none (hs : s.fdalloc p f = none) (hfd : fd < nofile) : s.ofiles p fd ≠ none :=
  of_decide_eq_false (firstIndex_eq_none (Option.map_eq_none_iff.mp hs) hfd)

/-- A reference of the call goes into a slot that was empty. -/
theorem Refs.setSlot (h : s.Refs e) (he : 0 < e f) (hf : f < nfile) (hfd : fd < nofile)
    (hnone : s.ofiles p fd = none) (hown : ∀ q fd', s.ofiles q fd' = some f → q = p) :
    (s.setSlot p fd (some f)).Refs (Function.update e f (e f - 1)) := by
  refine ⟨fun g => ?_, fun g q r fd₁ fd₂ hq hr => ?_, fun q fd' hq => ?_, fun q fd' g hq => ?_⟩
  · obtain ⟨slots, hslots, hcount⟩ := h.count g
    by_cases hg : g = f
    · subst hg
      have hnot : (p, fd) ∉ slots := by
        rw [hslots]
        simp [hnone]
      refine ⟨insert (p, fd) slots, fun x => ?_, ?_⟩
      · rw [Finset.mem_insert, ofiles_setSlot, hslots]
        by_cases hx : x = (p, fd)
        · simp [hx]
        · have hx' : ¬ (x.1 = p ∧ x.2 = fd) := fun hxx => hx (Prod.ext hxx.1 hxx.2)
          simp [hx, hx']
      · rw [Finset.card_insert_of_notMem hnot, Function.update_self]
        simp only [FileState.setSlot]
        push_cast
        omega
    · refine ⟨slots, fun x => ?_, ?_⟩
      · rw [ofiles_setSlot, hslots]
        split
        · rename_i hx
          simp [hx.1, hx.2, hnone, Ne.symm hg]
        · exact Iff.rfl
      · rw [Function.update_of_ne hg]
        exact hcount
  · rw [ofiles_setSlot] at hq hr
    split at hq
    · rename_i hx
      obtain rfl := Option.some.inj hq
      split at hr
      · rename_i hy
        exact hx.1.trans hy.1.symm
      · exact hx.1.trans (hown r fd₂ hr).symm
    · split at hr
      · rename_i hy
        obtain rfl := Option.some.inj hr
        exact (hown q fd₁ hq).trans hy.1.symm
      · exact h.owner g q r fd₁ fd₂ hq hr
  · rw [ofiles_setSlot] at hq
    split at hq
    · rename_i hx
      exact hx.2 ▸ hfd
    · exact h.fd_lt q fd' hq
  · rw [ofiles_setSlot] at hq
    split at hq
    · exact Option.some.inj hq ▸ hf
    · exact h.file_lt q fd' g hq

/-- The reference of a slot goes to the call. -/
theorem Refs.clearSlot (h : s.Refs e) (hfd : s.ofiles p fd = some f) :
    (s.setSlot p fd none).Refs (Function.update e f (e f + 1)) := by
  have hsub : ∀ {q fd' g}, (s.setSlot p fd none).ofiles q fd' = some g → s.ofiles q fd' = some g := by
    intro q fd' g hq
    rw [ofiles_setSlot] at hq
    split at hq
    · cases hq
    · exact hq
  refine ⟨fun g => ?_, fun g q r fd₁ fd₂ hq hr => h.owner g q r fd₁ fd₂ (hsub hq) (hsub hr),
    fun q fd' hq => ?_, fun q fd' g hq => h.file_lt q fd' g (hsub hq)⟩
  · obtain ⟨slots, hslots, hcount⟩ := h.count g
    by_cases hg : g = f
    · subst hg
      have hmem : (p, fd) ∈ slots := (hslots (p, fd)).mpr hfd
      refine ⟨slots.erase (p, fd), fun x => ?_, ?_⟩
      · rw [Finset.mem_erase, ofiles_setSlot, hslots]
        by_cases hx : x = (p, fd)
        · simp [hx]
        · have hx' : ¬ (x.1 = p ∧ x.2 = fd) := fun hxx => hx (Prod.ext hxx.1 hxx.2)
          simp [hx, hx']
      · have hcard := Finset.card_erase_add_one hmem
        rw [Function.update_self]
        simp only [FileState.setSlot]
        push_cast
        omega
    · refine ⟨slots, fun x => ?_, ?_⟩
      · rw [ofiles_setSlot, hslots]
        split
        · rename_i hx
          simp [hx.1, hx.2, hfd, Ne.symm hg]
        · exact Iff.rfl
      · rw [Function.update_of_ne hg]
        exact hcount
  · obtain ⟨g, hg⟩ := Option.ne_none_iff_exists'.mp hq
    exact h.fd_lt q fd' (by simp [hsub hg])

/-- One process has at most `NOFILE` slots, so the test of `file_dup` does not stop it. -/
theorem Refs.ref_lt (h : s.Refs e) (hown : ∀ q fd', s.ofiles q fd' = some f → q = p)
    (he : e f = 0) : (s.files f).ref < nfile := by
  obtain ⟨slots, hslots, hcount⟩ := h.count f
  have hsub : slots ⊆ {p} ×ˢ Finset.range nofile := by
    intro x hx
    have hxf := (hslots x).mp hx
    have hlt := h.fd_lt x.1 x.2 (by simp [hxf])
    exact Finset.mem_product.mpr
      ⟨Finset.mem_singleton.mpr (hown x.1 x.2 hxf), Finset.mem_range.mpr hlt⟩
  have hcard := Finset.card_le_card hsub
  simp only [Finset.card_product, Finset.card_singleton, Finset.card_range, one_mul] at hcard
  have hlt : nofile < nfile := by decide
  omega

/-! ### The calls -/

theorem fd2file_eq_some {fd : ℤ} (hs : s.fd2file p fd = some f) :
    s.ofiles p fd.toNat = some f := by
  rw [fd2file] at hs
  split at hs
  · cases hs
  · exact hs

theorem update_cancel (e : ℕ → ℕ) (f : ℕ) :
    Function.update (Function.update e f (e f + 1)) f
      (Function.update e f (e f + 1) f - 1) = e := by
  simp

/-- `dup`, with the two steps in the other order. -/
theorem refs_dup (h : s.Refs 0) (fd : ℤ) : (s.dup p fd).2.Refs 0 ∧
    ((s.dup p fd).1 = -1 → (s.dup p fd).2.ofiles = s.ofiles) := by
  rw [dup]
  cases hf : s.fd2file p fd with
  | none => exact ⟨h, fun _ => rfl⟩
  | some f =>
    have hslot := fd2file_eq_some hf
    have hown : ∀ q fd', s.ofiles q fd' = some f → q = p := fun q fd' hq =>
      h.owner f q p fd' fd.toNat hq hslot
    dsimp only
    cases hs : s.fdalloc p f with
    | none => exact ⟨h, fun _ => rfl⟩
    | some r =>
      obtain ⟨fd', t⟩ := r
      obtain ⟨hlt, hnone, -, rfl⟩ := fdalloc_eq_some hs
      have href := h.ref_lt hown rfl
      have hdup : (s.fileDup f).Refs (Function.update 0 f ((0 : ℕ → ℕ) f + 1)) := by
        rw [fileDup, if_pos href]
        refine h.setFile ?_ fun g hg => Function.update_of_ne hg _ _
        simp
      have hset := hdup.setSlot (p := p) (by simp) (h.file_lt p _ f hslot) hlt
        (by rw [fileDup, if_pos href]; exact hnone)
        (by rw [fileDup, if_pos href]; exact hown)
      refine ⟨?_, fun hret => by dsimp only at hret; omega⟩
      have heq : (s.setSlot p fd' (some f)).fileDup f = (s.fileDup f).setSlot p fd' (some f) := by
        have href' : ((s.setSlot p fd' (some f)).files f).ref < nfile := href
        rw [fileDup, if_pos href', fileDup, if_pos href]
        rfl
      rw [update_cancel, ← heq] at hset
      exact hset

theorem refs_close (h : s.Refs 0) (fd : ℤ) : (s.close p fd).2.Refs 0 ∧
    ((s.close p fd).1 = -1 → (s.close p fd).2.ofiles = s.ofiles) := by
  rw [close]
  cases hf : s.fd2file p fd with
  | none => exact ⟨h, fun _ => rfl⟩
  | some f =>
    have hclear := h.clearSlot (fd2file_eq_some hf)
    have hclose := hclear.fileClose (f := f) (by simp)
    refine ⟨?_, fun hret => by dsimp only at hret; omega⟩
    rw [update_cancel] at hclose
    exact hclose

/-- `openat`: the file is given back when there is no descriptor. -/
theorem refs_openat (h : s.Refs 0) (omode : ℕ) (ip : Option ℕ) : (s.openat p omode ip).2.Refs 0 ∧
    ((s.openat p omode ip).1 = -1 → (s.openat p omode ip).2.ofiles = s.ofiles) := by
  unfold openat
  cases ip with
  | none => exact ⟨h, fun _ => rfl⟩
  | some ip =>
    dsimp only
    cases hs : s.fileAlloc with
    | none => exact ⟨h, fun _ => rfl⟩
    | some r =>
      obtain ⟨f, t⟩ := r
      obtain ⟨ht, hof, hlt, href, -⟩ := h.fileAlloc hs
      dsimp only
      cases hd : t.fdalloc p f with
      | none =>
        have hclose := ht.fileClose (f := f) (by simp)
        rw [update_cancel] at hclose
        exact ⟨hclose, fun _ => hof⟩
      | some r =>
        obtain ⟨fd, u⟩ := r
        obtain ⟨hfd, hnone, -, rfl⟩ := fdalloc_eq_some hd
        have hset := ht.setSlot (p := p) (by simp) hlt hfd hnone fun q fd' hq => by
          rw [hof] at hq
          exact absurd hq ((h.free href).2 q fd')
        rw [update_cancel] at hset
        exact ⟨hset.setFile rfl fun _ _ => rfl, fun hret => by dsimp only at hret; omega⟩

/-- What `pipeAlloc` does: it fails and gives back what it took, or it has two files. -/
theorem pipeAlloc_cases (h : s.Refs 0) (pipe : Option ℕ) :
    (∃ t, s.pipeAlloc pipe = (none, t) ∧ t.Refs 0 ∧ t.ofiles = s.ofiles ∧
      ¬ (pipe.isSome = true ∧ s.TwoFilesFree)) ∨
    ∃ f g t, s.pipeAlloc pipe = (some (f, g), t) ∧
      t.Refs (Function.update (Function.update 0 f 1) g 1) ∧ t.ofiles = s.ofiles ∧ f ≠ g ∧
      f < nfile ∧ g < nfile ∧ (s.files f).ref = 0 ∧ (s.files g).ref = 0 := by
  unfold pipeAlloc
  cases pipe with
  | none => exact .inl ⟨s, rfl, h, rfl, by simp⟩
  | some pipe =>
    dsimp only
    cases hs : s.fileAlloc with
    | none =>
      refine .inl ⟨s, rfl, h, rfl, ?_⟩
      rintro ⟨-, f, hf, -, -, -, href, -⟩
      exact fileAlloc_eq_none hs hf href
    | some r =>
      obtain ⟨f, t⟩ := r
      obtain ⟨ht, hof, hlt, href, hother⟩ := h.fileAlloc hs
      dsimp only
      cases hg : t.fileAlloc with
      | none =>
        have hclose := ht.fileClose (f := f) (by simp)
        rw [update_cancel] at hclose
        refine .inl ⟨_, rfl, hclose, hof, ?_⟩
        -- the only file that was free is `f`
        have hf : ∀ i < nfile, (s.files i).ref = 0 → i = f := by
          intro i hi hzero
          by_contra hif
          exact fileAlloc_eq_none hg hi (by rw [hother i hif]; exact hzero)
        rintro ⟨-, i, hi, j, hj, hij, hi0, hj0⟩
        exact hij ((hf i hi hi0).trans (hf j hj hj0).symm)
      | some r =>
        obtain ⟨g, u⟩ := r
        obtain ⟨hu, hofu, hltg, hrefg, -⟩ := ht.fileAlloc hg
        have hfree := ht.free hrefg
        have hfg : f ≠ g := by
          rintro rfl
          simp at hfree
        have hrefg' : (s.files g).ref = 0 := by rw [← hother g (Ne.symm hfg)]; exact hrefg
        refine .inr ⟨f, g, _, rfl, ?_, hofu.trans hof, hfg, hlt, hltg, href, hrefg'⟩
        have he : Function.update (Function.update (0 : ℕ → ℕ) f ((0 : ℕ → ℕ) f + 1)) g
            (Function.update (0 : ℕ → ℕ) f ((0 : ℕ → ℕ) f + 1) g + 1)
            = Function.update (Function.update (0 : ℕ → ℕ) f 1) g 1 := by
          rw [Function.update_of_ne (Ne.symm hfg)]
          rfl
        rw [he] at hu
        refine Refs.setFile (Refs.setFile hu ?_ fun _ _ => rfl) ?_ fun _ _ => rfl
        · rfl
        · rfl

/-- The reference to `f` is given up first and then the one to `g`. -/
theorem update_cancel_two (hfg : f ≠ g) :
    Function.update (Function.update (Function.update (Function.update (0 : ℕ → ℕ) f 1) g 1) f 0)
      g 0 = 0 := by
  funext i
  by_cases hg : i = g
  · simp [hg]
  · by_cases hf : i = f
    · simp [hf, hfg]
    · simp [hg, hf]

/-- What `pipe2` does: it fails and changes nothing, or it succeeds; in the last case it
fails and leaves a descriptor behind. -/
theorem pipe2_cases (h : s.Refs 0) (p : ℕ) (pipe : Option ℕ) :
    (∃ t, s.pipe2 p pipe = (-1, t) ∧ t.Refs 0 ∧ t.ofiles = s.ofiles ∧
      ¬ (pipe.isSome = true ∧ s.TwoFilesFree ∧ s.OneSlotLeft p)) ∨
    (∃ t, s.pipe2 p pipe = (0, t) ∧ t.Refs 0 ∧ ¬ s.OneSlotLeft p) ∨
    ∃ t fd f, s.pipe2 p pipe = (-1, t) ∧ s.ofiles p fd = none ∧ t.ofiles p fd = some f ∧
      (t.files f).ref = 0 ∧ pipe.isSome = true ∧ s.TwoFilesFree ∧ s.OneSlotLeft p := by
  unfold pipe2
  rcases pipeAlloc_cases h pipe with ⟨t, heq, ht, hof, hfail⟩ |
    ⟨f, g, t, heq, ht, hof, hfg, hf, hg, href, hreg⟩
  · rw [heq]
    exact .inl ⟨t, rfl, ht, hof, fun hall => hfail ⟨hall.1, hall.2.1⟩⟩
  · have hpipe : pipe.isSome = true := by
      cases pipe with
      | none => simp [pipeAlloc] at heq
      | some pipe => rfl
    have htwo : s.TwoFilesFree := ⟨f, hf, g, hg, hfg, href, hreg⟩
    have hef : Function.update (Function.update (0 : ℕ → ℕ) f 1) g 1 f = 1 := by simp [hfg]
    have hfree : ∀ i, (s.files i).ref = 0 → ∀ q fd, t.ofiles q fd ≠ some i := by
      intro i hi q fd
      rw [hof]
      exact (h.free hi).2 q fd
    rw [heq]
    dsimp only
    cases hd : t.fdalloc p f with
    | none =>
      -- there is no descriptor at all
      have hfull : ∀ fd < nofile, s.ofiles p fd ≠ none := by
        intro fd hfd
        rw [← hof]
        exact fdalloc_eq_none hd hfd
      have hclose := ht.fileClose (f := f) (by rw [hef]; exact Nat.one_pos)
      rw [hef] at hclose
      have hclose' := hclose.fileClose (f := g) (by simp [Ne.symm hfg])
      rw [Function.update_of_ne (Ne.symm hfg), Function.update_self, Nat.sub_self,
        update_cancel_two hfg] at hclose'
      refine .inl ⟨_, rfl, hclose', hof, ?_⟩
      rintro ⟨-, -, fd, hfd, hnone, -⟩
      exact hfull fd hfd hnone
    | some r =>
      obtain ⟨fd, u⟩ := r
      obtain ⟨hfd, hnone, -, rfl⟩ := fdalloc_eq_some hd
      have hset := ht.setSlot (by rw [hef]; exact Nat.one_pos) hf hfd hnone
        fun q fd' hq => absurd hq (hfree f href q fd')
      rw [hef] at hset
      dsimp only
      cases hd' : (t.setSlot p fd (some f)).fdalloc p g with
      | none =>
        -- `fd` was the last one
        refine .inr (.inr ⟨_, fd, f, rfl, hof ▸ hnone, ?_, ?_, hpipe, htwo, fd, hfd, hof ▸ hnone, ?_⟩)
        · have hslot : (t.setSlot p fd (some f)).ofiles p fd = _ := ofiles_setSlot (some f) p fd
          rw [if_pos ⟨rfl, rfl⟩] at hslot
          exact hslot
        · obtain ⟨slots, hslots, hcount⟩ := ht.count f
          have hempty : slots = ∅ := Finset.eq_empty_of_forall_notMem fun x hx =>
            hfree f href x.1 x.2 ((hslots x).mp hx)
          rw [hempty, hef, Finset.card_empty] at hcount
          have hone : ((t.setSlot p fd (some f)).files f).ref = 1 := hcount
          have hclosed : (((t.setSlot p fd (some f)).fileClose f).files f).ref = 0 := by
            simp [fileClose, setFile, hone]
          rw [fileClose, setFile]
          simp only [Function.update_of_ne hfg]
          exact hclosed
        · intro fd' hfd' hnone'
          by_contra hne
          have hslot := fdalloc_eq_none hd' hfd'
          rw [ofiles_setSlot, if_neg fun hx => hne hx.2, hof] at hslot
          exact hslot hnone'
      | some r =>
        obtain ⟨fd', u⟩ := r
        obtain ⟨hfd', hnone', -, rfl⟩ := fdalloc_eq_some hd'
        have hset' := hset.setSlot (p := p) (by simp [Ne.symm hfg]) hg hfd' hnone'
          fun q i hq => by
            rw [ofiles_setSlot] at hq
            split at hq
            · exact absurd (Option.some.inj hq) hfg
            · exact absurd hq (hfree g hreg q i)
        rw [Function.update_of_ne (Ne.symm hfg), Function.update_self, Nat.sub_self,
          update_cancel_two hfg] at hset'
        refine .inr (.inl ⟨_, rfl, hset', ?_⟩)
        rintro ⟨i, -, hi, honly⟩
        rw [ofiles_setSlot] at hnone'
        split at hnone'
        · cases hnone'
        · rename_i hne
          rw [hof] at hnone hnone'
          exact hne ⟨rfl, (honly fd' hfd' hnone').trans (honly fd hfd hnone).symm⟩

/-- A call keeps the counts exactly when it is roomy. -/
theorem refs_call (h : s.Refs 0) (l : FileCall) :
    (s.Roomy l → (s.call l).2.Refs 0) ∧ (s.CallOk l ↔ s.Roomy l) := by
  have hok : ((s.call l).2.Refs 0 ∧ ((s.call l).1 = -1 → (s.call l).2.ofiles = s.ofiles)) →
      s.Roomy l → (s.Roomy l → (s.call l).2.Refs 0) ∧ (s.CallOk l ↔ s.Roomy l) :=
    fun hcall hroomy => ⟨fun _ => hcall.1, iff_of_true ⟨hcall.1.exact, hcall.2⟩ hroomy⟩
  cases l with
  | openat p omode ip => exact hok (refs_openat h omode ip) trivial
  | dup p fd => exact hok (refs_dup h fd) trivial
  | close p fd => exact hok (refs_close h fd) trivial
  | pipe2 p pipe =>
    have hroomy : s.Roomy (.pipe2 p pipe) ↔
        ¬ (pipe.isSome = true ∧ s.TwoFilesFree ∧ s.OneSlotLeft p) := by
      cases pipe with
      | none => simp [Roomy]
      | some pipe => simp [Roomy]
    rcases pipe2_cases h p pipe with ⟨t, heq, ht, hof, hno⟩ | ⟨t, heq, ht, hno⟩ |
      ⟨t, fd, f, heq, hnone, hleft, -, hyes⟩
    · refine hok ?_ (hroomy.mpr hno)
      rw [call, heq]
      exact ⟨ht, fun _ => hof⟩
    · refine hok ?_ (hroomy.mpr fun hall => hno hall.2.2)
      rw [call, heq]
      exact ⟨ht, fun hret => by dsimp only at hret; omega⟩
    · refine ⟨fun hr => absurd hyes (hroomy.mp hr), iff_of_false ?_ fun hr => hroomy.mp hr hyes⟩
      rintro ⟨-, hsame⟩
      rw [call, heq] at hsame
      rw [hsame rfl, hnone] at hleft
      cases hleft

theorem refs_of_reachable (h : fileSystem.Reachable Roomy s) : s.Refs 0 := by
  refine h.induction (fun _ => refs_init) fun u l v hu hl hv => ?_
  obtain rfl := Option.some.inj hv
  exact (refs_call hu l).1 hl

end FileState

/-- **Reference counts** are the numbers of slots in every state of a run whose `pipe2`
calls are roomy, and the next call keeps this, and changes no table when it fails,
exactly when it is roomy. -/
theorem refs_exact (s : FileState) (h : fileSystem.Reachable FileState.Roomy s) :
    s.RefsExact ∧ ∀ l, s.CallOk l ↔ s.Roomy l := by
  have hrefs := FileState.refs_of_reachable h
  exact ⟨hrefs.exact, fun l => (FileState.refs_call hrefs l).2⟩

namespace FileState

/-- The state after `init_ftable`. -/
def boot : FileState where
  files := fun _ => ⟨.none, 0, false, false, 0, 0⟩
  ofiles := fun _ _ => none

theorem init_boot : fileSystem.init boot := ⟨fun _ => rfl, fun _ _ => rfl⟩

/-- One `openat` and `n` calls of `dup`: process 0 has the descriptors up to `n`. -/
theorem exists_dup (n : ℕ) (hn : n < nofile) : ∃ s, fileSystem.Reachable Roomy s ∧
    (∀ fd, s.ofiles 0 fd = if fd ≤ n then some 0 else none) ∧
    ∀ f, f ≠ 0 → (s.files f).ref = 0 := by
  induction n with
  | zero =>
    have hfile : firstIndex (fun i => (boot.files i).ref = 0) nfile = some 0 :=
      firstIndex_eq (by decide) (by decide) fun j hj => absurd hj (Nat.not_lt_zero j)
    have hslot : ∀ file, firstIndex (fun fd => (boot.setFile 0 file).ofiles 0 fd = none) nofile
        = some 0 := fun file =>
      firstIndex_eq (by decide) rfl fun j hj => absurd hj (Nat.not_lt_zero j)
    have hinit : fileSystem.Reachable Roomy boot := .of_init init_boot
    refine ⟨_, hinit.step (l := .openat 0 0 (some 0)) trivial rfl, fun fd => ?_, fun f hf => ?_⟩
    · simp only [call, openat, fileAlloc, hfile, Option.map_some, fdalloc, hslot]
      by_cases hfd : fd = 0
      · simp [setFile, setSlot, boot, hfd]
      · simp [setFile, setSlot, boot, hfd]
    · simp only [call, openat, fileAlloc, hfile, Option.map_some, fdalloc, hslot]
      simp [setFile, setSlot, boot, hf]
  | succ n ih =>
    obtain ⟨s, hs, hslots, hfiles⟩ := ih (by omega)
    have hslot : firstIndex (fun fd => s.ofiles 0 fd = none) nofile = some (n + 1) :=
      firstIndex_eq hn (by simp [hslots]) fun j hj => by simp [hslots]; omega
    have hcall : s.call (.dup 0 0) = (((n + 1 : ℕ) : ℤ), (s.setSlot 0 (n + 1) (some 0)).fileDup 0) := by
      have hfd : s.fd2file 0 0 = some 0 := by
        rw [fd2file, if_neg (by decide)]
        exact (hslots 0).trans (if_pos (Nat.zero_le _))
      simp only [call, dup, hfd, fdalloc, hslot, Option.map_some]
    have hdup : ∀ u : FileState, (u.fileDup 0).ofiles = u.ofiles ∧
        ∀ f, f ≠ 0 → (u.fileDup 0).files f = u.files f := by
      intro u
      rw [fileDup]
      split
      · exact ⟨rfl, fun f hf => Function.update_of_ne hf _ _⟩
      · exact ⟨rfl, fun _ _ => rfl⟩
    refine ⟨_, hs.step (l := .dup 0 0) trivial rfl, fun fd => ?_, fun f hf => ?_⟩
    · rw [hcall]
      dsimp only
      rw [(hdup _).1, ofiles_setSlot, hslots]
      by_cases hfd : fd = n + 1
      · simp [hfd]
      · have hle : fd ≤ n + 1 ↔ fd ≤ n := by omega
        simp [hfd, hle]
    · rw [hcall]
      dsimp only
      rw [(hdup _).2 f hf]
      exact hfiles f hf

end FileState

/-- Process 0 opens a file and a pipe, and closes the read end of the pipe. -/
theorem refs_exact_pipe : ∃ s : FileState,
    (s.ofiles 0 0, s.ofiles 0 1, s.ofiles 0 2) = (some 0, none, some 2) ∧
    ((s.files 0).ref, (s.files 1).ref, (s.files 2).ref) = (1, 0, 1) ∧
    s.RefsExact ∧ ∀ l, s.CallOk l ↔ s.Roomy l := by
  have hboot : fileSystem.Reachable FileState.Roomy FileState.boot := .of_init FileState.init_boot
  have hopen := hboot.step (l := .openat 0 2 (some 5)) trivial rfl
  have hroomy : (FileState.boot.call (.openat 0 2 (some 5))).2.Roomy (.pipe2 0 (some 0)) := by
    -- the descriptors 1 and 2 are left
    rintro - ⟨fd, -, -, honly⟩
    have hone := honly 1 (by decide) (by decide +kernel)
    have htwo := honly 2 (by decide) (by decide +kernel)
    omega
  have hclose := (hopen.step (l := .pipe2 0 (some 0)) hroomy rfl).step (l := .close 0 1) trivial rfl
  exact ⟨_, by decide +kernel, by decide +kernel, refs_exact _ hclose⟩

/-- A process with 1023 descriptors calls `pipe2`: the call fails, and the last descriptor
points to a file whose count is 0. -/
theorem pipe2_stale : ∃ s t : FileState, fileSystem.Reachable (fun _ _ => True) s ∧
    s.call (.pipe2 0 (some 0)) = (-1, t) ∧
    ∃ fd f, s.ofiles 0 fd = none ∧ t.ofiles 0 fd = some f ∧ (t.files f).ref = 0 := by
  obtain ⟨s, hs, hslots, hfiles⟩ := FileState.exists_dup 1022 (by decide)
  have hleft : s.OneSlotLeft 0 := by
    refine ⟨1023, by decide, by simp [hslots], fun fd hfd hnone => ?_⟩
    rw [hslots] at hnone
    split at hnone
    · cases hnone
    · simp only [nofile] at hfd
      omega
  have htwo : s.TwoFilesFree :=
    ⟨1, by decide, 2, by decide, by decide, hfiles 1 (by decide), hfiles 2 (by decide)⟩
  have hrefs := FileState.refs_of_reachable hs
  refine ⟨s, ?_⟩
  rcases FileState.pipe2_cases hrefs 0 (some 0) with ⟨t, -, -, -, hno⟩ | ⟨t, -, -, hno⟩ |
    ⟨t, fd, f, heq, hnone, hslot, href, -⟩
  · exact absurd ⟨rfl, htwo, hleft⟩ hno
  · exact absurd hleft hno
  · exact ⟨t, hs.mono fun _ _ _ => trivial, heq, fd, f, hnone, hslot, href⟩

end OsLab
