/-
How the inode layer uses the block cache.

Each call of the inode layer is a program over the block cache (`FsCall.prog`).  The
programs keep a discipline (`cacheDiscipline`): they use a block between `cache_acquire`
and `cache_release`, sync what they have stored in it before they release it, and hold
nothing when they return.

* `run_fsCall` — a call over some block store is its program, answered by that store;
* `tidy_prog` — the programs keep the discipline.
-/
import OsLab.Fs.FileSystem
import OsLab.Fs.BlockPrograms
import OsLab.Lib.Discipline

namespace OsLab

/-! ### The calls as programs -/

section Interp

variable {σ : Type} {sb : SuperBlock} {ctx : Option ℕ} {inode : Inode}
  (ops : BlockOps (StateT σ (Except Fault)))

theorem interp_forUpTo {C : Type} {R : C → Type} {ε : Type}
    {h : (c : C) → StateT σ (Except ε) (R c)} {body : ℕ → Prog C R ε Unit}
    {body' : ℕ → StateT σ (Except ε) Unit} (hbody : ∀ k, (body k).interp h = body' k) (n : ℕ) :
    (forUpTo n body).interp h = forUpTo n body' := by
  induction n with
  | zero => rfl
  | succ n ih => simp only [forUpTo, Prog.interp_bind, ih, hbody]

theorem interp_forUpToWith {α : Type} {body : ℕ → α → BlockProg α}
    {body' : ℕ → α → StateT σ (Except Fault) α}
    (hbody : ∀ k x, (body k x).interp ops.answer = body' k x) (n : ℕ) (x : α) :
    (forUpToWith n x body).interp ops.answer = forUpToWith n x body' := by
  induction n with
  | zero => rfl
  | succ n ih => simp only [forUpToWith, Prog.interp_bind, ih, hbody]

theorem interp_inodeLock : (inodeLock sb (progCache sb) inode).interp ops.answer
    = inodeLock sb (ops.withBitmap sb) inode := by
  simp only [inodeLock, progCache_toBlockOps, withBitmap_toBlockOps]
  split
  · rfl
  · split
    · rfl
    · simp only [Prog.interp_bind, interp_acquire, interp_data, interp_release, Prog.interp_pure]

theorem interp_inodeAllocFrom (type : UInt16) (is : List ℕ) :
    (inodeAllocFrom sb (progCache sb) ctx type is).interp ops.answer
      = inodeAllocFrom sb (ops.withBitmap sb) ctx type is := by
  induction is with
  | nil => rfl
  | cons i is ih =>
    simp only [inodeAllocFrom, progCache_toBlockOps, withBitmap_toBlockOps, Prog.interp_bind,
      interp_acquire, interp_data]
    refine bind_congr fun b => bind_congr fun d => ?_
    split
    · simp only [Prog.interp_bind, interp_store, interp_sync, interp_release, Prog.interp_pure]
    · simp only [Prog.interp_bind, interp_release, ih]

theorem interp_inodeAlloc (type : UInt16) :
    (inodeAlloc sb (progCache sb) ctx type).interp ops.answer
      = inodeAlloc sb (ops.withBitmap sb) ctx type := by
  rw [inodeAlloc, inodeAlloc]
  split
  · rfl
  · exact interp_inodeAllocFrom ops type _

theorem interp_readChunk {count offset total : ℕ} {dest : List UInt8} :
    (readChunk (progCache sb) inode count offset total dest).interp ops.answer
      = readChunk (ops.withBitmap sb) inode count offset total dest := by
  simp only [readChunk, progCache_toBlockOps, withBitmap_toBlockOps, Prog.interp_bind,
    interp_inodeMap, interp_acquire, interp_data, interp_release, Prog.interp_pure]

theorem interp_inodeRead {offset count : ℕ} :
    (inodeRead (progCache sb) inode offset count).interp ops.answer
      = inodeRead (ops.withBitmap sb) inode offset count := by
  simp only [inodeRead]
  generalize (if inode.entry.numBytes.toNat < (count + offset) % usizeSize then
    (inode.entry.numBytes.toNat + usizeSize - offset) % usizeSize else count) = n
  split
  · simp only [Prog.interp_bind, Prog.interp_pure]
    rw [interp_forChunks ops fun _ _ _ => interp_readChunk ops]
  · rfl

theorem interp_clearDirect {i : ℕ} {entry : InodeEntry} :
    (clearDirect (progCache sb) ctx i entry).interp ops.answer
      = clearDirect (ops.withBitmap sb) ctx i entry := by
  simp only [clearDirect]
  split
  · simp only [Prog.interp_bind, interp_free, Prog.interp_pure]
  · rfl

theorem interp_clearIndirect {b i : ℕ} :
    (clearIndirect (progCache sb) ctx b i).interp ops.answer
      = clearIndirect (ops.withBitmap sb) ctx b i := by
  simp only [clearIndirect, progCache_toBlockOps, withBitmap_toBlockOps, Prog.interp_bind,
    interp_data]
  refine bind_congr fun d => ?_
  split
  · simp only [Prog.interp_bind, interp_free, interp_store]
  · rfl

theorem interp_inodeClear : (inodeClear sb (progCache sb) ctx inode).interp ops.answer
    = inodeClear sb (ops.withBitmap sb) ctx inode := by
  simp only [inodeClear, Prog.interp_bind, progCache_toBlockOps, withBitmap_toBlockOps]
  rw [interp_forUpToWith ops fun _ _ => interp_clearDirect ops]
  refine bind_congr fun entry => ?_
  split
  · simp only [Prog.interp_bind, interp_acquire]
    refine bind_congr fun b => ?_
    simp only [interp_sync, interp_release, interp_free, Prog.interp_pure, interp_inodeSync]
    rw [interp_forUpTo fun _ => interp_clearIndirect ops]
  · exact interp_inodeSync ops

theorem interp_inodePut : (inodePut sb (progCache sb) ctx inode).interp ops.answer
    = inodePut sb (ops.withBitmap sb) ctx inode := by
  simp only [inodePut, progCache_toBlockOps, withBitmap_toBlockOps]
  split
  · simp only [Prog.interp_bind, interp_inodeClear, interp_acquire, interp_data, interp_store,
      interp_sync, interp_release, Prog.interp_pure]
  · rfl

end Interp

namespace FsCall

/-- The inode that a call works on. -/
def pick (sb : SuperBlock) (inodes : ℕ → Option Inode) : FsCall → Except Fault Inode
  | .alloc _ _ => .ok ⟨0, 0, false, .zero⟩
  | .get i =>
    if i = 0 ∨ sb.numInodes ≤ i then .error .panic
    else
      match inodes i with
      | some inode => .ok { inode with rc := inode.rc + 1 }
      | none => .ok { rc := 1, inodeNo := i, valid := false, entry := .zero }
  | .write _ i _ _ | .read i _ _ | .clear _ i | .put _ i =>
    match inodes i with
    | some inode => .ok inode
    | none => .error .panic

/-- The program of a call that works on `inode`: the result and the inode after it. -/
def prog (sb : SuperBlock) (inode : Inode) : FsCall → BlockProg (FsResult × Option Inode)
  | .alloc ctx type => do
    let i ← inodeAlloc sb (progCache sb) ctx type
    return (.inodeNo i, none)
  | .get _ => do
    let inode ← inodeLock sb (progCache sb) inode
    return (.none, some inode)
  | .write op _ src offset => do
    let r ← inodeWrite sb (progCache sb) (some op) inode (fun j => src.getD j 0) offset src.length
    return (.count r.1, some r.2)
  | .read _ offset count => do
    let r ← inodeRead (progCache sb) inode offset count
    return (.bytes r.1 r.2, some inode)
  | .clear ctx _ => do
    let inode ← inodeClear sb (progCache sb) ctx inode
    return (.none, some inode)
  | .put ctx _ => do
    let inode ← inodePut sb (progCache sb) ctx inode
    return (.none, inode)

/-- The inodes in memory after a call that leaves `inode`. -/
def table (inodes : ℕ → Option Inode) (inode : Option Inode) : FsCall → ℕ → Option Inode
  | .alloc _ _ => inodes
  | .get i | .write _ i _ _ | .read i _ _ | .clear _ i | .put _ i => Function.update inodes i inode

end FsCall

section Run

variable {σ α : Type} {sb : SuperBlock} (ops : BlockOps (StateT σ (Except Fault)))

theorem except_ok_bind {ε β : Type} (a : α) (f : α → Except ε β) : (Except.ok a >>= f) = f a := rfl

theorem run_onStore (p : StateT σ (Except Fault) α) (s : FsState σ) :
    (onStore p).run s = p.run s.store >>= fun r => .ok (r.1, { s with store := r.2 }) := by
  simp only [StateT.run, onStore]
  cases p s.store <;> rfl

theorem run_setInode (i : ℕ) (inode : Option Inode) (s : FsState σ) :
    (setInode i inode).run s
      = .ok ((), { s with inodes := Function.update s.inodes i inode }) := rfl

theorem run_inodeOf {i : ℕ} {s : FsState σ} {x : Except Fault Inode}
    (hx : x = match s.inodes i with
      | some inode => .ok inode
      | none => .error .panic) :
    (inodeOf i).run s = x >>= fun inode => .ok (inode, s) := by
  have h : (inodeOf i).run s = (match s.inodes i with
    | some inode => (pure inode : FsM σ Inode)
    | none => throw Fault.panic).run s := rfl
  rw [h, hx]
  cases s.inodes i <;> rfl

/-- **A call is its program**, answered by the block store. -/
theorem run_fsCall (l : FsCall) (s : FsState σ) :
    (fsCall sb (ops.withBitmap sb) l).run s = l.pick sb s.inodes >>= fun inode =>
      ((l.prog sb inode).interp ops.answer).run s.store >>= fun r =>
        .ok (r.1.1, ⟨r.2, l.table s.inodes r.1.2⟩) := by
  cases l with
  | alloc ctx type =>
    simp only [fsCall, FsCall.pick, FsCall.prog, FsCall.table, Prog.interp_bind,
      interp_inodeAlloc, StateT.run_bind, run_onStore]
    cases (inodeAlloc sb (ops.withBitmap sb) ctx type).run s.store <;> rfl
  | get i =>
    have hget : (inodeGet sb i).run s = (FsCall.get i).pick sb s.inodes >>= fun inode =>
        .ok (inode, s) := by
      rw [inodeGet, FsCall.pick]
      split
      · rfl
      · simp only [StateT.run_bind, StateT.run_get]
        show (match s.inodes i with
          | some inode => (pure { inode with rc := inode.rc + 1 } : FsM σ Inode)
          | none => pure { rc := 1, inodeNo := i, valid := false, entry := .zero }).run s = _
        cases s.inodes i <;> rfl
    simp only [fsCall, StateT.run_bind, hget]
    cases (FsCall.get i).pick sb s.inodes with
    | error e => rfl
    | ok inode =>
      simp only [FsCall.prog, Prog.interp_bind, interp_inodeLock, StateT.run_bind, run_onStore,
        run_setInode, except_ok_bind]
      cases (inodeLock sb (ops.withBitmap sb) inode).run s.store <;> rfl
  | write op i src offset =>
    simp only [fsCall, StateT.run_bind, run_inodeOf (s := s) (i := i) rfl]
    change ((FsCall.write op i src offset).pick sb s.inodes >>= _) >>= _ = _
    cases (FsCall.write op i src offset).pick sb s.inodes with
    | error e => rfl
    | ok inode =>
      simp only [FsCall.prog, Prog.interp_bind, interp_inodeWrite, StateT.run_bind, run_onStore,
        run_setInode, except_ok_bind]
      cases (inodeWrite sb (ops.withBitmap sb) (some op) inode (fun j => src.getD j 0) offset
        src.length).run s.store <;> rfl
  | read i offset count =>
    simp only [fsCall, StateT.run_bind, run_inodeOf (s := s) (i := i) rfl, FsCall.pick]
    cases hinode : s.inodes i with
    | none => rfl
    | some inode =>
      have hsame : Function.update s.inodes i (some inode) = s.inodes := by
        rw [← hinode, Function.update_eq_self]
      simp only [FsCall.prog, Prog.interp_bind, interp_inodeRead, StateT.run_bind, run_onStore,
        except_ok_bind]
      cases (inodeRead (ops.withBitmap sb) inode offset count).run s.store with
      | error e => rfl
      | ok r =>
        show Except.ok _
          = Except.ok (_, (⟨r.2, Function.update s.inodes i (some inode)⟩ : FsState σ))
        rw [hsame]
  | clear ctx i =>
    simp only [fsCall, StateT.run_bind, run_inodeOf (s := s) (i := i) rfl]
    change ((FsCall.clear ctx i).pick sb s.inodes >>= _) >>= _ = _
    cases (FsCall.clear ctx i).pick sb s.inodes with
    | error e => rfl
    | ok inode =>
      simp only [FsCall.prog, Prog.interp_bind, interp_inodeClear, StateT.run_bind, run_onStore,
        run_setInode, except_ok_bind]
      cases (inodeClear sb (ops.withBitmap sb) ctx inode).run s.store <;> rfl
  | put ctx i =>
    simp only [fsCall, StateT.run_bind, run_inodeOf (s := s) (i := i) rfl]
    change ((FsCall.put ctx i).pick sb s.inodes >>= _) >>= _ = _
    cases (FsCall.put ctx i).pick sb s.inodes with
    | error e => rfl
    | ok inode =>
      simp only [FsCall.prog, Prog.interp_bind, interp_inodePut, StateT.run_bind, run_onStore,
        run_setInode, except_ok_bind]
      cases (inodePut sb (ops.withBitmap sb) ctx inode).run s.store <;> rfl

end Run

/-! ### The discipline -/

/-- What a program has of a block. -/
inductive Grip
  | free
  | clean
  /-- with a store that has not been synced -/
  | dirty
deriving DecidableEq

/-- The discipline of a program that syncs in the context `ctx`; with the null context it
may sync the blocks of `through` only, and only what it has not changed. -/
def cacheDiscipline (ctx : Option ℕ) (through : ℕ → Prop) :
    Discipline BlockCall BlockCall.Ret (ℕ → Grip) where
  pre h
    | .acquire _ => True
    | .data b | .store b _ => h b ≠ .free
    | .sync ctx' b => h b ≠ .free ∧ ctx' = ctx ∧ (ctx = none → h b = .clean ∧ through b)
    | .release b => h b = .clean
  answers h
    | .acquire n, r => r = n ∧ h n = .free
    | .data _, _ | .store _ _, _ | .sync _ _, _ | .release _, _ => True
  post h
    | .acquire n => Function.update h n .clean
    | .data _ => h
    | .store b _ => Function.update h b .dirty
    | .sync _ b => Function.update h b .clean
    | .release b => Function.update h b .free

section Rules

open Prog

variable {ctx : Option ℕ} {through : ℕ → Prop} {β : Type} {h : ℕ → Grip} {g : Grip} {n b : ℕ}
  {d : BlockData} {Q : β → (ℕ → Grip) → Prop}

theorem follows_acquire {f : ℕ → BlockProg β}
    (hf : h n = .free →
      (f n).Follows (cacheDiscipline ctx through) Q (Function.update h n .clean)) :
    (progOps.acquire n >>= f).Follows (cacheDiscipline ctx through) Q h := by
  refine ⟨trivial, fun r hr => ?_⟩
  have hrn : r = n := hr.1
  rw [hrn]
  exact hf hr.2

theorem follows_data {f : BlockData → BlockProg β} (hg : g ≠ .free)
    (hf : ∀ d, (f d).Follows (cacheDiscipline ctx through) Q (Function.update h b g)) :
    (progOps.data b >>= f).Follows (cacheDiscipline ctx through) Q (Function.update h b g) := by
  have hb : Function.update h b g b ≠ .free := by rwa [Function.update_self]
  exact ⟨hb, fun d _ => hf d⟩

theorem follows_store {f : Unit → BlockProg β} (hg : g ≠ .free)
    (hf : (f ()).Follows (cacheDiscipline ctx through) Q (Function.update h b .dirty)) :
    (progOps.store b d >>= f).Follows (cacheDiscipline ctx through) Q (Function.update h b g) := by
  have hb : Function.update h b g b ≠ .free := by rwa [Function.update_self]
  refine ⟨hb, fun _ _ => ?_⟩
  have hpost : (cacheDiscipline ctx through).post (Function.update h b g) (.store b d)
      = Function.update h b .dirty := Function.update_idem _ _ _
  rw [hpost]
  exact hf

theorem follows_sync {f : Unit → BlockProg β} (hg : g ≠ .free)
    (hnull : ctx = none → g = .clean ∧ through b)
    (hf : (f ()).Follows (cacheDiscipline ctx through) Q (Function.update h b .clean)) :
    (progOps.sync ctx b >>= f).Follows (cacheDiscipline ctx through) Q (Function.update h b g) := by
  have hb : Function.update h b g b = g := Function.update_self _ _ _
  refine ⟨⟨by rwa [hb], rfl, by rwa [hb]⟩, fun _ _ => ?_⟩
  have hpost : (cacheDiscipline ctx through).post (Function.update h b g) (.sync ctx b)
      = Function.update h b .clean := Function.update_idem _ _ _
  rw [hpost]
  exact hf

theorem follows_release {f : Unit → BlockProg β} (hb : h b = .free)
    (hf : (f ()).Follows (cacheDiscipline ctx through) Q h) :
    (progOps.release b >>= f).Follows (cacheDiscipline ctx through) Q
      (Function.update h b .clean) := by
  refine ⟨Function.update_self _ _ _, fun _ _ => ?_⟩
  have hpost :
      (cacheDiscipline ctx through).post (Function.update h b .clean) (.release b) = h := by
    show Function.update (Function.update h b .clean) b .free = h
    rw [Function.update_idem, ← hb, Function.update_eq_self]
  rw [hpost]
  exact hf

/-- A program that keeps the discipline and gives back what it takes. -/
structure Tidy (ctx : Option ℕ) (through : ℕ → Prop) (p : BlockProg β) : Prop where
  follows : ∀ h, p.Follows (cacheDiscipline ctx through) (fun _ e => e = h) h

theorem Tidy.bind {α : Type} {p : BlockProg α} {f : α → BlockProg β} (hp : Tidy ctx through p)
    (hf : ∀ a, (f a).Follows (cacheDiscipline ctx through) Q h) :
    (p >>= f).Follows (cacheDiscipline ctx through) Q h := by
  refine (hp.follows h).bind fun a e he => ?_
  obtain rfl : e = h := he
  exact hf a

theorem tidy_pure {a : β} : Tidy ctx through (pure a) := ⟨fun _ => rfl⟩

theorem tidy_throw {e : Fault} : Tidy ctx through (throw e : BlockProg β) :=
  ⟨fun _ => trivial⟩

theorem Tidy.seq {α : Type} {p : BlockProg α} {f : α → BlockProg β} (hp : Tidy ctx through p)
    (hf : ∀ a, Tidy ctx through (f a)) : Tidy ctx through (p >>= f) :=
  ⟨fun h => hp.bind fun a => (hf a).follows h⟩

end Rules

section Functions

open Prog

variable {sb : SuperBlock} {c : ℕ} {ctx : Option ℕ} {through : ℕ → Prop} {inode : Inode}

/-- In an operation every block may be synced. -/
theorem sync_some {g : Grip} {b : ℕ} : some c = none → g = .clean ∧ through b := fun h => by cases h

theorem tidy_cacheAllocFrom (ks : List ℕ) :
    Tidy (some c) through (cacheAllocFrom sb progOps (some c) ks) := by
  induction ks with
  | nil => exact tidy_throw
  | cons k ks ih =>
    refine ⟨fun h => ?_⟩
    rw [cacheAllocFrom]
    refine follows_acquire fun hb => follows_data (by decide) fun d => ?_
    split
    · refine follows_store (by decide) (follows_sync (by decide) sync_some (follows_release hb ?_))
      refine follows_acquire fun hb => ?_
      refine follows_store (by decide) (follows_sync (by decide) sync_some (follows_release hb ?_))
      rfl
    · exact follows_release hb (ih.follows h)

theorem tidy_alloc : Tidy (some c) through ((progCache sb).alloc (some c)) := tidy_cacheAllocFrom _

theorem tidy_free (n : ℕ) : Tidy (some c) through ((progCache sb).free (some c) n) := by
  refine ⟨fun h => ?_⟩
  refine follows_acquire fun hb => follows_data (by decide) fun d => ?_
  refine follows_store (by decide) (follows_sync (by decide) sync_some ?_)
  exact follows_release hb rfl

theorem tidy_mapIndirect {k : ℕ} (hthrough : ctx = none → through inode.entry.indirect.toNat) :
    Tidy ctx through (mapIndirect (progCache sb) ctx inode k) := by
  refine ⟨fun h => ?_⟩
  rw [mapIndirect]
  refine follows_acquire fun hb => follows_data (by decide) fun d => ?_
  dsimp only
  split
  · split
    · exact follows_release hb rfl
    · rename_i hctx
      obtain ⟨c, rfl⟩ := Option.ne_none_iff_exists'.mp hctx
      refine tidy_alloc.bind fun n => ?_
      exact follows_store (by decide) (follows_sync (by decide) sync_some (follows_release hb rfl))
  · exact follows_sync (by decide) (fun hc => ⟨rfl, hthrough hc⟩) (follows_release hb rfl)

theorem tidy_inodeMap {offset : ℕ} (hthrough : ctx = none → through inode.entry.indirect.toNat) :
    Tidy ctx through (inodeMap (progCache sb) ctx inode offset) := by
  rw [inodeMap]
  dsimp only
  split
  · split
    · split
      · exact tidy_pure
      · rename_i hctx
        obtain ⟨c, rfl⟩ := Option.ne_none_iff_exists'.mp hctx
        exact tidy_alloc.seq fun _ => tidy_pure
    · exact tidy_pure
  · split
    · split
      · split
        · exact tidy_pure
        · rename_i hctx
          obtain ⟨c, rfl⟩ := Option.ne_none_iff_exists'.mp hctx
          exact tidy_alloc.seq fun _ => tidy_mapIndirect fun h => by cases h
      · exact tidy_mapIndirect hthrough
    · exact tidy_pure

theorem tidy_forChunks {α : Type} {count : ℕ} {body : ℕ → ℕ → α → BlockProg α}
    (hbody : ∀ offset total x, Tidy ctx through (body offset total x)) :
    ∀ fuel offset total x, Tidy ctx through (forChunks count body fuel offset total x) := by
  intro fuel
  induction fuel with
  | zero => exact fun _ _ _ => tidy_pure
  | succ fuel ih =>
    intro offset total x
    rw [forChunks]
    split
    · exact (hbody _ _ _).seq fun _ => ih _ _ _
    · exact tidy_pure

theorem tidy_inodeSync {doWrite : Bool} :
    Tidy (some c) through (inodeSync sb (progCache sb) (some c) inode doWrite) := by
  refine ⟨fun h => ?_⟩
  rw [inodeSync]
  refine follows_acquire fun hb => follows_data (by decide) fun d => ?_
  split
  · refine follows_store (by decide) (follows_sync (by decide) sync_some ?_)
    exact follows_release hb rfl
  · split
    · exact follows_release hb rfl
    · split
      · exact follows_release hb rfl
      · trivial

theorem tidy_inodeLock : Tidy ctx through (inodeLock sb (progCache sb) inode) := by
  rw [inodeLock]
  split
  · exact tidy_throw
  · split
    · exact tidy_pure
    · refine ⟨fun h => ?_⟩
      exact follows_acquire fun hb => follows_data (by decide) fun d => follows_release hb rfl

theorem tidy_inodeAlloc {type : UInt16} :
    Tidy (some c) through (inodeAlloc sb (progCache sb) (some c) type) := by
  rw [inodeAlloc]
  split
  · exact tidy_throw
  · generalize List.range' 1 (sb.numInodes - 1) = is
    induction is with
    | nil => exact tidy_throw
    | cons i is ih =>
      refine ⟨fun h => ?_⟩
      rw [inodeAllocFrom]
      refine follows_acquire fun hb => follows_data (by decide) fun d => ?_
      split
      · refine follows_store (by decide) (follows_sync (by decide) sync_some ?_)
        exact follows_release hb rfl
      · exact follows_release hb (ih.follows h)

theorem tidy_inodeRead {offset count : ℕ} (hthrough : through inode.entry.indirect.toNat) :
    Tidy none through (inodeRead (progCache sb) inode offset count) := by
  rw [inodeRead]
  generalize (if inode.entry.numBytes.toNat < (count + offset) % usizeSize then
    (inode.entry.numBytes.toNat + usizeSize - offset) % usizeSize else count) = n
  split
  · refine (tidy_forChunks (fun _ _ _ => ?_) _ _ _ _).seq fun _ => tidy_pure
    refine (tidy_inodeMap fun _ => hthrough).seq fun r => ⟨fun h => ?_⟩
    exact follows_acquire fun hb => follows_data (by decide) fun d => follows_release hb rfl
  · exact tidy_throw

theorem tidy_inodeWrite {src : ℕ → UInt8} {offset count : ℕ} :
    Tidy (some c) through (inodeWrite sb (progCache sb) (some c) inode src offset count) := by
  rw [inodeWrite]
  dsimp only
  split
  · refine (tidy_forChunks (fun _ _ _ => ?_) _ _ _ _).seq fun _ => ?_
    · refine (tidy_inodeMap fun h => by cases h).seq fun r => ⟨fun h => ?_⟩
      refine follows_acquire fun hb => follows_data (by decide) fun d => ?_
      refine follows_store (by decide) (follows_sync (by decide) sync_some ?_)
      exact follows_release hb rfl
    · split
      · exact tidy_inodeSync.seq fun _ => tidy_pure
      · exact tidy_pure
  · exact tidy_throw

theorem tidy_forUpToWith {α : Type} {body : ℕ → α → BlockProg α}
    (hbody : ∀ k x, Tidy ctx through (body k x)) (n : ℕ) (x : α) :
    Tidy ctx through (forUpToWith n x body) := by
  induction n with
  | zero => exact tidy_pure
  | succ n ih => exact ih.seq fun y => hbody n y

/-- The loop over the indirect block `b`, which is in hand and may have been changed. -/
theorem follows_clearIndirect (h : ℕ → Grip) (b n : ℕ) :
    (forUpTo n (clearIndirect (progCache sb) (some c) b)).Follows (cacheDiscipline (some c) through)
      (fun _ e => ∃ g, g ≠ .free ∧ e = Function.update h b g) (Function.update h b .clean) := by
  induction n with
  | zero => exact ⟨.clean, by decide, rfl⟩
  | succ n ih =>
    refine ih.bind fun _ e he => ?_
    obtain ⟨g, hg, rfl⟩ := he
    rw [clearIndirect]
    refine follows_data hg fun d => ?_
    split
    · refine (tidy_free _).bind fun _ => ?_
      have hstore : (progOps.store b (d.setAddr n 0) >>= pure).Follows
          (cacheDiscipline (some c) through)
          (fun _ e => ∃ g, g ≠ Grip.free ∧ e = Function.update h b g) (Function.update h b g) :=
        follows_store hg ⟨.dirty, by decide, rfl⟩
      exact hstore
    · exact ⟨g, hg, rfl⟩

theorem tidy_inodeClear : Tidy (some c) through (inodeClear sb (progCache sb) (some c) inode) := by
  rw [inodeClear]
  refine (tidy_forUpToWith (fun k e => ?_) _ _).seq fun entry => ?_
  · rw [clearDirect]
    split
    · exact (tidy_free _).seq fun _ => tidy_pure
    · exact tidy_pure
  · split
    · refine ⟨fun h => ?_⟩
      generalize inodeNumIndirect = n
      refine follows_acquire fun hb => ?_
      refine (follows_clearIndirect h _ n).bind fun _ e he => ?_
      obtain ⟨g, hg, rfl⟩ := he
      refine follows_sync hg sync_some (follows_release hb ?_)
      exact (tidy_free _).bind fun _ => tidy_inodeSync.follows h
    · exact tidy_inodeSync

theorem tidy_inodePut : Tidy (some c) through (inodePut sb (progCache sb) (some c) inode) := by
  rw [inodePut]
  split
  · refine tidy_inodeClear.seq fun inode => ⟨fun h => ?_⟩
    refine follows_acquire fun hb => follows_data (by decide) fun d => ?_
    refine follows_store (by decide) (follows_sync (by decide) sync_some ?_)
    exact follows_release hb rfl
  · exact tidy_pure

end Functions

/-- The context in which a call syncs: reads and `inode_lock` have the null context. -/
def FsCall.context : FsCall → Option ℕ
  | .alloc ctx _ | .clear ctx _ | .put ctx _ => ctx
  | .write op _ _ _ => some op
  | .get _ | .read _ _ _ => none

/-- The calls that change the file system are in an operation. -/
def FsCall.InOperation (l : FsCall) : Prop :=
  match l with
  | .get _ | .read _ _ _ => True
  | l => l.context ≠ none

/-- **The inode layer keeps the discipline.**  A read syncs the indirect block of its inode
only, without having changed it. -/
theorem tidy_prog {sb : SuperBlock} {inode : Inode} {l : FsCall} {through : ℕ → Prop}
    (hop : l.InOperation)
    (hthrough : ∀ i offset count, l = .read i offset count → through inode.entry.indirect.toNat) :
    Tidy l.context through (l.prog sb inode) := by
  cases l with
  | alloc ctx type =>
    obtain ⟨c, rfl⟩ := Option.ne_none_iff_exists'.mp hop
    exact tidy_inodeAlloc.seq fun _ => tidy_pure
  | get i => exact tidy_inodeLock.seq fun _ => tidy_pure
  | write op i src offset => exact tidy_inodeWrite.seq fun _ => tidy_pure
  | read i offset count =>
    exact (tidy_inodeRead (hthrough i offset count rfl)).seq fun _ => tidy_pure
  | clear ctx i =>
    obtain ⟨c, rfl⟩ := Option.ne_none_iff_exists'.mp hop
    exact tidy_inodeClear.seq fun _ => tidy_pure
  | put ctx i =>
    obtain ⟨c, rfl⟩ := Option.ne_none_iff_exists'.mp hop
    exact tidy_inodePut.seq fun _ => tidy_pure

end OsLab
