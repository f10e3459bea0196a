/-
The offset of an open file that several holders share (`file_read` and `file_write` on the file
of an inode).

A call has two steps: the section under the lock of the inode, which uses `f->off`, and
later the update of `f->off`, for which it holds no lock.  The blocks are in a cache that
behaves as a map; the operation that a write opens before its section and ends after it
changes nothing here.

* `offset_within` — in the runs in which no section that moves bytes is entered while an
  update is outstanding, the offset stays in the file, and the calls move consecutive
  pieces of it;
* `offset_overtakes` — two readers that both enter before they update read the same bytes,
  and leave the offset behind the end of the file.
-/
import OsLab.Fs.Bitmap
import OsLab.Kernel.SysFile

namespace OsLab

/-- The bytes that one call has read or written. -/
structure Piece (H : Type) where
  holder : H
  start : ℕ
  bytes : List UInt8
  deriving DecidableEq

/-- The pieces follow each other from `o` on. -/
def Consecutive {H : Type} : ℕ → List (Piece H) → Prop
  | _, [] => True
  | o, p :: ps => p.start = o ∧ Consecutive (o + p.bytes.length) ps

/-- The open file, its inode in memory and the blocks; `H` are the holders. -/
structure OffState (H σ : Type) where
  store : σ
  file : File
  inode : Inode
  /-- `r`, between the unlock and the update of `f->off` -/
  moved : H → Option ℤ
  /-- what has been read and written, in the order of the sections -/
  pieces : List (Piece H)

/-- The steps of the calls; `n` is passed on as a `usize`. -/
inductive OffCall (H : Type)
  /-- `file_read` up to `inodes.unlock` -/
  | read (h : H) (n : BitVec 64)
  /-- `file_write` up to `inodes.unlock`, in operation `op` -/
  | write (h : H) (op : ℕ) (addr : ℕ → UInt8) (n : BitVec 64)
  /-- `if (r > 0) f->off += r` -/
  | update (h : H)

section Calls

variable {m : Type → Type} [Monad m] [MonadExceptOf Fault m]

/-- The section of `file_read`: the inode, the bytes read, and `r`, an `isize`. -/
def readSection (sb : SuperBlock) (cache : BlockCache m) (inode : Inode) (off : ℕ)
    (n : BitVec 64) : m (Inode × List UInt8 × ℤ) := do
  let inode ← inodeLock sb cache inode
  let r ← inodeRead cache inode off n.toNat
  return (inode, r.1, (BitVec.ofNat 64 r.2).toInt)

/-- The section of `file_write`: the inode, the bytes written, and `r`, a `usize`. -/
def writeSection (sb : SuperBlock) (cache : BlockCache m) (inode : Inode) (off op : ℕ)
    (addr : ℕ → UInt8) (n : BitVec 64) : m (Inode × List UInt8 × ℤ) := do
  let inode ← inodeLock sb cache inode
  let r ← inodeWrite sb cache (some op) inode addr off n.toNat
  return (r.2, (List.range r.1).map addr, r.1)

end Calls

section System

variable {sb : SuperBlock} {H σ : Type} [DecidableEq H]

/-- Holder `h` makes its section, which may panic. -/
def OffState.enter (s : OffState H σ) (h : H)
    (p : StateT σ (Except Fault) (Inode × List UInt8 × ℤ)) : Option (OffState H σ) :=
  match p.run s.store with
  | .ok ((inode, bytes, r), store) => some
    { store := store
      file := s.file
      inode := inode
      moved := Function.update s.moved h (some r)
      pieces := if bytes = [] then s.pieces else s.pieces ++ [⟨h, s.file.off, bytes⟩] }
  | .error _ => none

/-- One step; a call that the mode of the file does not allow returns -1. -/
def offStep (sb : SuperBlock) (cache : BlockCache (StateT σ (Except Fault)))
    (s : OffState H σ) : OffCall H → Option (OffState H σ)
  | .read h n =>
    if s.moved h ≠ none then none
    else if s.file.type = .inode ∧ s.file.readable = true then
      s.enter h (readSection sb cache s.inode s.file.off n)
    else some s
  | .write h op addr n =>
    if s.moved h ≠ none then none
    else if s.file.type = .inode ∧ s.file.writable = true then
      s.enter h (writeSection sb cache s.inode s.file.off op addr n)
    else some s
  | .update h => (s.moved h).map fun r : ℤ =>
    { s with
      file := if 0 < r then { s.file with off := (s.file.off + r.toNat) % usizeSize } else s.file
      moved := Function.update s.moved h none }

variable (M : MapCache sb σ)

/-- The file is open on an inode that has been loaded, its offset is in the file, and nobody is in
a call. -/
structure OffStart (s : OffState H σ) : Prop where
  ok : M.Ok s.store
  consistent : Consistent sb (M.abs s.store)
  loaded : Loaded sb (M.abs s.store).view s.file.obj s.inode
  rc : s.inode.rc ≠ 0
  type : s.file.type = .inode
  off : s.file.off ≤ s.inode.entry.numBytes.toNat
  moved : ∀ h, s.moved h = none
  pieces : s.pieces = []

def offSystem : System (OffState H σ) (OffCall H) where
  init := OffStart M
  step := offStep sb M.cache

/-- No update of the offset is outstanding. -/
def OffState.Idle (s : OffState H σ) : Prop := ∀ h, ∀ r ∈ s.moved h, r ≤ 0

/-- A section that moves bytes is entered only when no update is outstanding. -/
def Alone (s : OffState H σ) : OffCall H → Prop
  | .read _ n => s.file.readable = true → n ≠ 0 → s.Idle
  | .write _ _ _ n => s.file.writable = true → n ≠ 0 → s.Idle
  | .update _ => True

instance [Fintype H] (s : OffState H σ) : Decidable s.Idle :=
  inferInstanceAs (Decidable (∀ h, ∀ r ∈ s.moved h, r ≤ 0))

instance [Fintype H] (s : OffState H σ) : (l : OffCall H) → Decidable (Alone s l)
  | .read _ n => inferInstanceAs (Decidable (s.file.readable = true → n ≠ 0 → s.Idle))
  | .write _ _ _ n => inferInstanceAs (Decidable (s.file.writable = true → n ≠ 0 → s.Idle))
  | .update _ => inferInstanceAs (Decidable True)

/-- The calls share the offset, which was `o`, as if each of them were one step. -/
structure SharesOffset (o : ℕ) (s : OffState H σ) : Prop where
  /-- the assertions of `inode_read` and `inode_write` -/
  within : s.file.off ≤ s.inode.entry.numBytes.toNat
  consecutive : Consecutive o s.pieces
  disjoint : s.pieces.Pairwise fun p q => p.start + p.bytes.length ≤ q.start
  /-- the pieces are the bytes of the file from `o` on -/
  bytes : ∃ l, files sb (M.abs s.store).view s.file.obj = some l ∧
    s.pieces.flatMap Piece.bytes <+: l.drop o

end System

section Pieces

variable {H : Type} {o : ℕ} {ps : List (Piece H)} {p : Piece H}

/-- A piece can follow exactly where the others end. -/
theorem consecutive_append : Consecutive o (ps ++ [p]) ↔
    Consecutive o ps ∧ p.start = o + (ps.flatMap Piece.bytes).length := by
  induction ps generalizing o with
  | nil => simp [Consecutive]
  | cons q ps ih =>
    rw [List.cons_append, Consecutive, Consecutive, ih, List.flatMap_cons, List.length_append,
      Nat.add_assoc, and_assoc]

/-- Consecutive pieces lie at `o` or behind. -/
theorem Consecutive.le_start (h : Consecutive o ps) : ∀ q ∈ ps, o ≤ q.start := by
  induction ps generalizing o with
  | nil =>
    intro q hq
    cases hq
  | cons p ps ih =>
    intro q hq
    rcases List.mem_cons.mp hq with rfl | hq
    · exact Nat.le_of_eq h.1.symm
    · exact Nat.le_trans (Nat.le_add_right _ _) (ih h.2 q hq)

/-- Consecutive pieces are disjoint. -/
theorem Consecutive.disjoint (h : Consecutive o ps) :
    ps.Pairwise fun p q => p.start + p.bytes.length ≤ q.start := by
  induction ps generalizing o with
  | nil => exact .nil
  | cons p ps ih =>
    refine List.pairwise_cons.mpr ⟨fun q hq => ?_, ih h.2⟩
    rw [h.1]
    exact h.2.le_start q hq

end Pieces

/-! ### One section -/

section Sections

variable {sb : SuperBlock} {H σ : Type} [DecidableEq H] (M : MapCache sb σ)

/-- What a section of `n` bytes does that uses the offset `off` of the file `i`, with the content
`l`. -/
structure Moves (i : ℕ) (inode₀ : Inode) (l : List UInt8) (off : ℕ) (n : BitVec 64)
    (x : Inode × List UInt8 × ℤ) (t : σ) : Prop where
  ok : M.Ok t
  consistent : Consistent sb (M.abs t)
  loaded : Loaded sb (M.abs t).view i x.1
  rc : x.1.rc = inode₀.rc
  result : x.2.2 = x.2.1.length
  nothing : n = 0 → x.2.1 = []
  /-- the bytes in front of the offset stay, the piece follows them -/
  file : ∃ l', files sb (M.abs t).view i = some l' ∧ (x.2.1 = [] → l' = l) ∧
    l'.take off = l.take off ∧ x.2.1 <+: l'.drop off
  /-- something is moved unless the offset is at the end -/
  something : n ≠ 0 → off < l.length → x.2.1 ≠ []

variable {M} {s t : OffState H σ} {A : MapState} {i : ℕ} {inode : Inode} {l : List UInt8}
  {off op : ℕ} {n : BitVec 64} {addr : ℕ → UInt8} {x : Inode × List UInt8 × ℤ} {u v : σ}

theorem lock_loaded {cache : BlockCache (StateT σ (Except Fault))} (hrc : inode.rc ≠ 0)
    (hvalid : inode.valid = true) : inodeLock sb cache inode = pure inode := by
  rw [inodeLock, if_neg hrc, if_pos hvalid]

/-- The section of `file_read`. -/
theorem moves_read (h : M.At u A) (hc : Consistent sb A) (hlo : Loaded sb A.view i inode)
    (hrc : inode.rc ≠ 0) (hf : files sb A.view i = some l) (hoff : off ≤ l.length) :
    wp (readSection sb M.cache inode off n) (Moves M i inode l off n) (fun _ => True) u := by
  have hsize := hlo.length_lt hf
  simp only [readSection, lock_loaded hrc hlo.valid, wp_bind, wp_pure]
  refine wp_of_returns fun r v hrun => ?_
  have hlt := (MapCache.args_of_read n.isLt hrun).2
  have hread : wp (inodeRead M.cache inode off n.toNat) _ (fun _ => False) u :=
    MapCache.wp_read_file h hc hlo hf hoff hlt
  have hdone := wp_run hread hrun
  obtain ⟨⟨hok, rfl⟩, hbytes, hlen⟩ := hdone
  have hle : r.1.length ≤ l.length := by
    rw [hbytes, List.length_take, List.length_drop]
    omega
  refine { ok := hok, consistent := hc, loaded := hlo, rc := rfl, result := ?_, nothing := ?_
           file := ⟨l, hf, fun _ => rfl, rfl, ?_⟩, something := ?_ }
  · -- the `isize` is not negative
    show (BitVec.ofNat 64 r.2).toInt = r.1.length
    have hnat : (BitVec.ofNat 64 r.2).toNat = r.2 := by
      rw [BitVec.toNat_ofNat]
      omega
    rw [BitVec.toInt_eq_toNat_of_lt (by omega), hnat, hlen]
  · rintro rfl
    show r.1 = []
    rw [hbytes]
    rfl
  · show r.1 <+: l.drop off
    rw [hbytes]
    exact List.take_prefix _ _
  · intro hn hoff' hnil
    have hzero : r.1.length = 0 := by
      show r.1.length = 0
      rw [show r.1 = [] from hnil]
      rfl
    have hpos : n.toNat ≠ 0 := fun h0 => hn (BitVec.eq_of_toNat_eq h0)
    rw [hbytes, List.length_take, List.length_drop] at hzero
    omega

/-- The section of `file_write`. -/
theorem moves_write (hl : sb.Layout) (h : M.At u A) (hc : Consistent sb A)
    (hlo : Loaded sb A.view i inode) (hrc : inode.rc ≠ 0) (hf : files sb A.view i = some l)
    (hoff : off ≤ l.length) :
    wp (writeSection sb M.cache inode off op addr n) (Moves M i inode l off n) (fun _ => True)
      u := by
  have hsize := hlo.length_lt hf
  simp only [writeSection, lock_loaded hrc hlo.valid, wp_bind, wp_pure]
  refine wp_of_returns fun r v hrun => ?_
  have hmax := (MapCache.args_of_write n.isLt hrun).2
  have hwrite : wp (inodeWrite sb M.cache (some op) inode addr off n.toNat) (fun r v =>
      Moves M i inode l off n (r.2, (List.range r.1).map addr, (r.1 : ℤ)) v) (fun _ => True) u := by
    refine MapCache.wp_write_bytes hl h hc hlo hf hoff hmax (fun _ _ => trivial)
      fun e B t ht _ hcB hloB _ hfiles => ?_
    obtain ⟨hok, rfl⟩ := ht
    have hempty : (List.range n.toNat).map addr = [] ↔ n.toNat = 0 := by simp
    have hprefix := prefix_overwrite (s := (List.range n.toNat).map addr) hoff
    refine { ok := hok, consistent := hcB, loaded := hloB, rc := rfl, result := ?_, nothing := ?_
             file := ⟨overwrite l off ((List.range n.toNat).map addr), ?_, ?_, hprefix⟩
             something := ?_ }
    · simp
    · rintro rfl
      rfl
    · rw [hfiles, Function.update_self]
    · intro hnil
      rw [show (List.range n.toNat).map addr = [] from hnil, overwrite_nil]
    · intro hn _ hnil
      exact hn (BitVec.eq_of_toNat_eq (hempty.mp hnil))
  have hdone := wp_run hwrite hrun
  exact hdone

end Sections

/-! ### Runs -/

section Runs

variable {sb : SuperBlock} {H σ : Type} (M : MapCache sb σ)

/-- What holds between the steps: at most one update is outstanding, and the pieces end where it
takes the offset. -/
structure OffInv (o : ℕ) (s : OffState H σ) : Prop where
  ok : M.Ok s.store
  consistent : Consistent sb (M.abs s.store)
  loaded : Loaded sb (M.abs s.store).view s.file.obj s.inode
  rc : s.inode.rc ≠ 0
  type : s.file.type = .inode
  start : o ≤ s.inode.entry.numBytes.toNat
  consecutive : Consecutive o s.pieces
  bytes : ∃ l, files sb (M.abs s.store).view s.file.obj = some l ∧
    s.pieces.flatMap Piece.bytes <+: l.drop o
  place : (s.Idle ∧ o + (s.pieces.flatMap Piece.bytes).length = s.file.off) ∨
    ∃ h, ∃ r : ℕ, s.moved h = some (r : ℤ) ∧ 0 < r ∧ (∀ k, k ≠ h → ∀ r' ∈ s.moved k, r' ≤ 0) ∧
      o + (s.pieces.flatMap Piece.bytes).length = s.file.off + r

variable {M} {s t : OffState H σ} {o : ℕ} {h : H} {n : BitVec 64} {l : List UInt8}
  {p : StateT σ (Except Fault) (Inode × List UInt8 × ℤ)}

theorem OffInv.of_start (h : OffStart M s) : OffInv M s.file.off s := by
  obtain ⟨l, hf⟩ : ∃ l, files sb (M.abs s.store).view s.file.obj = some l := ⟨_, h.loaded.files.1⟩
  refine { ok := h.ok, consistent := h.consistent, loaded := h.loaded, rc := h.rc, type := h.type
           start := h.off, consecutive := ?_, bytes := ⟨l, hf, ?_⟩, place := .inl ⟨fun k r hr => ?_, ?_⟩ }
  · rw [h.pieces]
    trivial
  · rw [h.pieces]
    exact List.nil_prefix
  · rw [h.moved k] at hr
    cases hr
  · rw [h.pieces]
    rfl

/-- The pieces lie in the file. -/
theorem OffInv.total_le (h : OffInv M o s) :
    o + (s.pieces.flatMap Piece.bytes).length ≤ s.inode.entry.numBytes.toNat := by
  obtain ⟨l, hf, hprefix⟩ := h.bytes
  have hl := h.loaded.length_eq hf
  have hle := hprefix.length_le
  have hstart := h.start
  rw [List.length_drop] at hle
  omega

/-- So does the offset. -/
theorem OffInv.off_le (h : OffInv M o s) : s.file.off ≤ s.inode.entry.numBytes.toNat := by
  have htotal := h.total_le
  rcases h.place with ⟨-, hoff⟩ | ⟨-, r, -, -, -, hoff⟩
  · omega
  · omega

theorem OffInv.shares (h : OffInv M o s) : SharesOffset M o s :=
  ⟨h.off_le, h.consecutive, h.consecutive.disjoint, h.bytes⟩

variable [DecidableEq H]

/-- What a section has done when it returns. -/
theorem moves_of_enter
    (hp : wp p (Moves M s.file.obj s.inode l s.file.off n) (fun _ => True) s.store)
    (hs : s.enter h p = some t) : ∃ x, Moves M s.file.obj s.inode l s.file.off n x t.store ∧
      t.file = s.file ∧ t.inode = x.1 ∧ t.moved = Function.update s.moved h (some x.2.2) ∧
      t.pieces = if x.2.1 = [] then s.pieces else s.pieces ++ [⟨h, s.file.off, x.2.1⟩] := by
  unfold OffState.enter at hs
  split at hs
  · rename_i inode bytes r store hrun
    cases hs
    have hdone := wp_run hp hrun
    exact ⟨_, hdone, rfl, rfl, rfl, rfl⟩
  · cases hs

/-- A section keeps the invariant when it moves nothing or no update is outstanding. -/
theorem OffInv.enter (hi : OffInv M o s) (hmoved : s.moved h = none)
    (hf : files sb (M.abs s.store).view s.file.obj = some l)
    (hp : wp p (Moves M s.file.obj s.inode l s.file.off n) (fun _ => True) s.store)
    (hs : s.enter h p = some t) (halone : n ≠ 0 → s.Idle) : OffInv M o t := by
  obtain ⟨⟨inode, bytes, r⟩, hx, hfile, hinode, hmv, hpieces⟩ := moves_of_enter hp hs
  obtain ⟨l', hf', hsame, htake, hprefix⟩ := hx.file
  obtain ⟨l₀, hf₀, hbefore⟩ := hi.bytes
  obtain rfl : l₀ = l := Option.some.inj (hf₀.symm.trans hf)
  obtain rfl : r = bytes.length := hx.result
  dsimp only at hsame htake hprefix hinode hmv hpieces
  have hlen : l₀.length = s.inode.entry.numBytes.toNat := hi.loaded.length_eq hf
  have hlen' : l'.length = inode.entry.numBytes.toNat := hx.loaded.length_eq hf'
  have hother : ∀ k, k ≠ h → t.moved k = s.moved k := fun k hk => by
    rw [hmv, Function.update_of_ne hk]
  have hself : t.moved h = some (bytes.length : ℤ) := by rw [hmv, Function.update_self]
  have hrc : t.inode.rc ≠ 0 := by
    rw [hinode, hx.rc]
    exact hi.rc
  have htype : t.file.type = .inode := by
    rw [hfile]
    exact hi.type
  have hload : Loaded sb (M.abs t.store).view t.file.obj t.inode := by
    rw [hfile, hinode]
    exact hx.loaded
  have hstart := hi.start
  have htotal := hi.total_le
  by_cases hnil : bytes = []
  · -- nothing is moved, and what is outstanding stays so
    rw [if_pos hnil] at hpieces
    obtain rfl := hsame hnil
    have hzero : t.moved h = some 0 := by
      rw [hself, hnil]
      rfl
    have hkeep : ∀ k, ∀ r' ∈ t.moved k, 0 < r' → r' ∈ s.moved k := by
      intro k r' hr' hpos
      by_cases hk : k = h
      · rw [hk, hzero] at hr'
        cases hr'
        exact absurd hpos (lt_irrefl 0)
      · rwa [← hother k hk]
    refine { ok := hx.ok, consistent := hx.consistent, loaded := hload, rc := hrc, type := htype
             start := ?_, consecutive := hpieces ▸ hi.consecutive, bytes := ⟨l', ?_, ?_⟩, place := ?_ }
    · rw [hinode]
      omega
    · rw [hfile]
      exact hf'
    · rw [hpieces]
      exact hbefore
    · rw [hpieces, hfile]
      rcases hi.place with ⟨hidle, hoff⟩ | ⟨h₀, r, hr, hpos, hrest, hoff⟩
      · refine .inl ⟨fun k r' hr' => ?_, hoff⟩
        by_contra hlt
        exact hlt (hidle k r' (hkeep k r' hr' (not_le.mp hlt)))
      · have hne : h₀ ≠ h := by
          rintro rfl
          rw [hmoved] at hr
          cases hr
        refine .inr ⟨h₀, r, ?_, hpos, fun k hk r' hr' => ?_, hoff⟩
        · rw [hother h₀ hne, hr]
        · by_contra hlt
          exact hlt (hrest k hk r' (hkeep k r' hr' (not_le.mp hlt)))
  · -- the piece follows the others, and the update is now outstanding
    have hidle : s.Idle := halone fun h0 => hnil (hx.nothing h0)
    have hoff : o + (s.pieces.flatMap Piece.bytes).length = s.file.off := by
      rcases hi.place with ⟨-, hoff⟩ | ⟨h₀, r, hr, hpos, -, -⟩
      · exact hoff
      · have hle := hidle h₀ r hr
        omega
    have hlong : s.file.off ≤ l'.length := by
      have hlens := congrArg List.length htake
      rw [List.length_take, List.length_take] at hlens
      omega
    rw [if_neg hnil] at hpieces
    have hflat : t.pieces.flatMap Piece.bytes = s.pieces.flatMap Piece.bytes ++ bytes := by
      rw [hpieces, List.flatMap_append]
      simp
    refine { ok := hx.ok, consistent := hx.consistent, loaded := hload, rc := hrc, type := htype
             start := ?_, consecutive := ?_, bytes := ⟨l', ?_, ?_⟩
             place := .inr ⟨h, bytes.length, hself, ?_, ?_, ?_⟩ }
    · rw [hinode]
      omega
    · rw [hpieces, consecutive_append]
      exact ⟨hi.consecutive, hoff.symm⟩
    · rw [hfile]
      exact hf'
    · rw [hflat]
      exact prefix_append_of_take hbefore hoff htake hprefix
    · exact List.length_pos_of_ne_nil hnil
    · intro k hk r' hr'
      rw [hother k hk] at hr'
      exact hidle k r' hr'
    · rw [hflat, hfile, List.length_append]
      omega

/-- A section that moves bytes while an update is outstanding uses the same offset again. -/
theorem OffInv.overlaps (hi : OffInv M o s)
    (hf : files sb (M.abs s.store).view s.file.obj = some l)
    (hp : wp p (Moves M s.file.obj s.inode l s.file.off n) (fun _ => True) s.store)
    (hs : s.enter h p = some t) (hbusy : ¬(n ≠ 0 → s.Idle)) : ¬Consecutive o t.pieces := by
  obtain ⟨hn, hidle⟩ := Classical.not_imp.mp hbusy
  obtain ⟨⟨inode, bytes, r⟩, hx, -, -, -, hpieces⟩ := moves_of_enter hp hs
  have htotal := hi.total_le
  have hlen : l.length = s.inode.entry.numBytes.toNat := hi.loaded.length_eq hf
  rcases hi.place with ⟨hidle', -⟩ | ⟨h₀, r₀, -, hpos, -, hoff⟩
  · exact absurd hidle' hidle
  · have hmoved : bytes ≠ [] := hx.something hn (by omega)
    dsimp only at hpieces
    rw [if_neg hmoved] at hpieces
    rw [hpieces, consecutive_append]
    rintro ⟨-, hstart⟩
    dsimp only at hstart
    omega

/-- A step other than an update is a section of `n` bytes or a call that is not allowed. -/
theorem OffInv.step_cases (hl : sb.Layout) (hi : OffInv M o s) {c : OffCall H}
    (hs : (offSystem M).step s c = some t) :
    (∃ h n l p, s.moved h = none ∧ files sb (M.abs s.store).view s.file.obj = some l ∧
      wp p (Moves M s.file.obj s.inode l s.file.off n) (fun _ => True) s.store ∧
      s.enter h p = some t ∧ (Alone s c ↔ (n ≠ 0 → s.Idle))) ∨
    (∃ h, c = .update h) ∨ (t = s ∧ Alone s c) := by
  obtain ⟨l, hf, -⟩ := hi.bytes
  have hoff : s.file.off ≤ l.length := by
    rw [hi.loaded.length_eq hf]
    exact hi.off_le
  cases c with
  | read h n =>
    simp only [offSystem, offStep] at hs
    split at hs
    · cases hs
    · rename_i hmoved
      split at hs
      · rename_i hmode
        refine .inl ⟨h, n, l, _, not_not.mp hmoved, hf,
          moves_read ⟨hi.ok, rfl⟩ hi.consistent hi.loaded hi.rc hf hoff, hs, ?_⟩
        exact forall_prop_of_true hmode.2
      · rename_i hmode
        cases hs
        exact .inr (.inr ⟨rfl, fun hread => absurd ⟨hi.type, hread⟩ hmode⟩)
  | write h op addr n =>
    simp only [offSystem, offStep] at hs
    split at hs
    · cases hs
    · rename_i hmoved
      split at hs
      · rename_i hmode
        refine .inl ⟨h, n, l, _, not_not.mp hmoved, hf,
          moves_write hl ⟨hi.ok, rfl⟩ hi.consistent hi.loaded hi.rc hf hoff, hs, ?_⟩
        exact forall_prop_of_true hmode.2
      · rename_i hmode
        cases hs
        exact .inr (.inr ⟨rfl, fun hwrite => absurd ⟨hi.type, hwrite⟩ hmode⟩)
  | update h => exact .inr (.inl ⟨h, rfl⟩)

/-- The update takes the offset to the end of the pieces. -/
theorem OffInv.update (hi : OffInv M o s) (hs : (offSystem M).step s (.update h) = some t) :
    OffInv M o t := by
  simp only [offSystem, offStep] at hs
  obtain ⟨r, hr, rfl⟩ := Option.map_eq_some_iff.mp hs
  have htotal := hi.total_le
  have h32 := s.inode.entry.numBytes.toNat_lt
  have hmoved : ∀ k, ∀ r' ∈ Function.update s.moved h none k, k ≠ h ∧ r' ∈ s.moved k := by
    intro k r' hr'
    by_cases hk : k = h
    · rw [hk, Function.update_self] at hr'
      cases hr'
    · rw [Function.update_of_ne hk] at hr'
      exact ⟨hk, hr'⟩
  by_cases hpos : 0 < r
  · -- this was the update that was outstanding
    obtain ⟨h₀, r₀, hr₀, -, hrest, hoff⟩ := hi.place.resolve_left fun hidle =>
      absurd (hidle.1 h r hr) (not_le.mpr hpos)
    have hh : h = h₀ := by
      by_contra hne
      exact absurd (hrest h hne r hr) (not_le.mpr hpos)
    obtain rfl : r = r₀ := Option.some.inj (hr.symm.trans (hh ▸ hr₀))
    have hmod : (s.file.off + (r₀ : ℤ).toNat) % usizeSize = s.file.off + r₀ := by
      rw [Int.toNat_natCast]
      exact Nat.mod_eq_of_lt (by simp only [usizeSize]; omega)
    refine { ok := hi.ok, consistent := hi.consistent, loaded := ?_, rc := hi.rc, type := ?_
             start := hi.start, consecutive := hi.consecutive, bytes := ?_
             place := .inl ⟨fun k r' hr' => ?_, ?_⟩ }
    · simp only [if_pos hpos]
      exact hi.loaded
    · simp only [if_pos hpos]
      exact hi.type
    · simp only [if_pos hpos]
      exact hi.bytes
    · obtain ⟨hk, hr''⟩ := hmoved k r' hr'
      exact hrest k (hh ▸ hk) r' hr''
    · simp only [if_pos hpos, hmod]
      exact hoff
  · simp only [if_neg hpos]
    refine { ok := hi.ok, consistent := hi.consistent, loaded := hi.loaded, rc := hi.rc
             type := hi.type, start := hi.start, consecutive := hi.consecutive
             bytes := hi.bytes, place := ?_ }
    rcases hi.place with ⟨hidle, hoff⟩ | ⟨h₀, r₀, hr₀, hpos₀, hrest, hoff⟩
    · exact .inl ⟨fun k r' hr' => hidle k r' (hmoved k r' hr').2, hoff⟩
    · have hne : h₀ ≠ h := by
        rintro rfl
        obtain rfl : r = r₀ := Option.some.inj (hr.symm.trans hr₀)
        exact hpos (Int.natCast_pos.mpr hpos₀)
      exact .inr ⟨h₀, r₀, (Function.update_of_ne hne _ _).trans hr₀, hpos₀,
        fun k hk r' hr' => hrest k hk r' (hmoved k r' hr').2, hoff⟩

theorem OffInv.step (hl : sb.Layout) (hi : OffInv M o s) {c : OffCall H} (halone : Alone s c)
    (hs : (offSystem M).step s c = some t) : OffInv M o t := by
  rcases hi.step_cases hl hs with ⟨h, n, l, p, hmoved, hf, hp, henter, hiff⟩ | ⟨h, rfl⟩ | ⟨rfl, -⟩
  · exact hi.enter hmoved hf hp henter (hiff.mp halone)
  · exact hi.update hs
  · exact hi

end Runs

/-- **The offset of a shared file stays in the file**, and the bytes read and written are
consecutive pieces of it, in the runs in which a section that moves bytes is entered only when no
update of the offset is outstanding.  The first section that is entered otherwise does not continue
the pieces. -/
theorem offset_within (sb : SuperBlock) (hl : sb.Layout) (H σ : Type) [DecidableEq H]
    (M : MapCache sb σ) (s₀ s : OffState H σ) (h₀ : (offSystem M).init s₀)
    (h : (offSystem M).Leads Alone s₀ s) :
    SharesOffset M s₀.file.off s ∧
    ∀ c t, (offSystem M).step s c = some t → ¬Alone s c → ¬Consecutive s₀.file.off t.pieces := by
  have hi : OffInv M s₀.file.off s :=
    h.induction (fun _ _ _ hi halone hs => hi.step hl halone hs) (OffInv.of_start h₀)
  refine ⟨hi.shares, fun c t hs hbusy => ?_⟩
  rcases hi.step_cases hl hs with ⟨h, n, l, p, -, hf, hp, henter, hiff⟩ | ⟨h, rfl⟩ | ⟨-, halone⟩
  · exact hi.overlaps hf hp henter fun h => hbusy (hiff.mpr h)
  · exact absurd trivial hbusy
  · exact absurd halone hbusy

/-! ### Two holders -/

namespace OffState

/-- Inode 1, opened by two holders. -/
def opened (s : FsState BlockStore) (inode : Inode) : OffState (Fin 2) BlockStore where
  store := s.store
  file := ⟨.inode, 2, true, true, 1, 0⟩
  inode := inode
  moved := fun _ => none
  pieces := []

/-- A file of three bytes. -/
def threeBytes : List FsCall := [.alloc none 2, .get 1, .write 0 1 [5, 6, 7] 0]

theorem start_opened {s : FsState BlockStore} {inode : Inode}
    (hs : (fsSystem .mkfs).exec (FsState.AllowedAt .mkfs) (.blank .mkfs) threeBytes = some s)
    (hi : s.inodes 1 = some inode) (hrc : inode.rc = 1) :
    (offSystem mkfsCache).init (opened s inode) := by
  obtain ⟨A, hA⟩ := FsState.inv_of_reachable SuperBlock.layout_mkfs
    ⟨_, FsState.init_blank, System.leads_of_exec hs⟩
  obtain ⟨⟨hok, rfl⟩, hcons, hload⟩ := hA
  exact ⟨hok, hcons, hload 1 inode hi, by rw [opened, hrc]; exact one_ne_zero, rfl, Nat.zero_le _,
    fun _ => rfl, rfl⟩

/-- What the steps `cs` make of the file of three bytes. -/
def outcome (ok : OffState (Fin 2) BlockStore → OffCall (Fin 2) → Prop) [∀ s c, Decidable (ok s c)]
    (cs : List (OffCall (Fin 2))) : Option (ℕ × ℕ × ℕ × List (Piece (Fin 2))) :=
  ((fsSystem .mkfs).exec (FsState.AllowedAt .mkfs) (.blank .mkfs) threeBytes).bind fun s =>
    (s.inodes 1).bind fun inode =>
      ((offSystem mkfsCache).exec ok (opened s inode) cs).map fun t =>
        (inode.rc, t.file.off, t.inode.entry.numBytes.toNat, t.pieces)

/-- The run behind an outcome. -/
theorem run_of_outcome {ok : OffState (Fin 2) BlockStore → OffCall (Fin 2) → Prop}
    [∀ s c, Decidable (ok s c)] {cs : List (OffCall (Fin 2))} {off n : ℕ}
    {ps : List (Piece (Fin 2))} (h : outcome ok cs = some (1, off, n, ps)) :
    ∃ s₀ s, (offSystem mkfsCache).init s₀ ∧ (offSystem mkfsCache).Leads ok s₀ s ∧
      s₀.file.off = 0 ∧ s.file.off = off ∧ s.inode.entry.numBytes.toNat = n ∧ s.pieces = ps := by
  obtain ⟨s, hs, h⟩ := Option.bind_eq_some_iff.mp h
  obtain ⟨inode, hi, h⟩ := Option.bind_eq_some_iff.mp h
  obtain ⟨t, ht, heq⟩ := Option.map_eq_some_iff.mp h
  obtain ⟨hrc, heq⟩ := Prod.mk.inj heq
  obtain ⟨hoff, heq⟩ := Prod.mk.inj heq
  obtain ⟨hnum, hpieces⟩ := Prod.mk.inj heq
  exact ⟨opened s inode, t, start_opened hs hi hrc, System.leads_of_exec ht, rfl, hoff, hnum,
    hpieces⟩

end OffState

/-- Two holders read two bytes each, one after the other: the second gets the last byte. -/
theorem offset_within_two : ∃ s₀ s : OffState (Fin 2) BlockStore,
    (offSystem mkfsCache).init s₀ ∧ s.pieces = [⟨0, 0, [5, 6]⟩, ⟨1, 2, [7]⟩] ∧ s.file.off = 3 ∧
    SharesOffset mkfsCache s₀.file.off s := by
  have hrun : OffState.outcome Alone [.read 0 2, .update 0, .read 1 2, .update 1]
      = some (1, 3, 3, [⟨0, 0, [5, 6]⟩, ⟨1, 2, [7]⟩]) := by
    decide +kernel
  obtain ⟨s₀, s, h₀, hs, -, hoff, -, hpieces⟩ := OffState.run_of_outcome hrun
  exact ⟨s₀, s, h₀, hpieces, hoff,
    (offset_within .mkfs SuperBlock.layout_mkfs (Fin 2) BlockStore mkfsCache s₀ s h₀ hs).1⟩

/-- **Two readers that overlap** get the same bytes, and the offset passes the end of the file, so
that the assertion of the next call fails. -/
theorem offset_overtakes : ∃ s : OffState (Fin 2) BlockStore,
    (offSystem mkfsCache).Reachable (fun _ _ => True) s ∧
    s.pieces = [⟨0, 0, [5, 6]⟩, ⟨1, 0, [5, 6]⟩] ∧
    s.inode.entry.numBytes.toNat < s.file.off ∧
    ¬∃ o, SharesOffset mkfsCache o s := by
  have hrun : OffState.outcome (fun _ _ => True) [.read 0 2, .read 1 2, .update 0, .update 1]
      = some (1, 4, 3, [⟨0, 0, [5, 6]⟩, ⟨1, 0, [5, 6]⟩]) := by
    decide +kernel
  obtain ⟨s₀, s, h₀, hs, -, hoff, hnum, hpieces⟩ := OffState.run_of_outcome hrun
  have hlt : s.inode.entry.numBytes.toNat < s.file.off := by
    rw [hoff, hnum]
    decide
  exact ⟨s, ⟨s₀, h₀, hs⟩, hpieces, hlt, fun ⟨_, hshares⟩ => absurd hshares.within (not_le.mpr hlt)⟩

end OsLab
