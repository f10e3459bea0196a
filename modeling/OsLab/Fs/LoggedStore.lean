/-
A block store whose syncs go to the log.

`loggedOps` is the block store of one operation: a sync takes an entry of the log header
and of `ctx->rm`, and panics without one.  `tracedOps` never fails and keeps the list of
the blocks that are synced.

* `logged_run_iff` — a program over `loggedOps` returns exactly when it returns over
  `tracedOps` and the header absorbs the list;
* `absorbAll_iff` — which it does when the blocks that it does not have yet are at most
  `ctx->rm`.
-/
import OsLab.Fs.BlockPrograms
import OsLab.Fs.Bitmap
import OsLab.Fs.LogAdmission

namespace OsLab

/-- The blocks, the log and the context of the operation. -/
structure LoggedStore where
  store : BlockStore
  header : LogHeader
  log : Log
  /-- `ctx->rm` -/
  rm : ℕ

/-- A program of the block store. -/
def onBlocks {α : Type} (p : StateT BlockStore (Except Fault) α) :
    StateT LoggedStore (Except Fault) α := fun s =>
  match p.run s.store with
  | .ok (a, t) => .ok (a, { s with store := t })
  | .error e => .error e

/-- The block store whose syncs go to the log. -/
def loggedOps : BlockOps (StateT LoggedStore (Except Fault)) where
  acquire n := onBlocks (mapOps.acquire n)
  data b := onBlocks (mapOps.data b)
  store b d := onBlocks (mapOps.store b d)
  sync
    | none, _ => pure ()
    | some _, b => do
      let s ← get
      match s.header.absorb s.rm b with
      | .error e => throw e
      | .ok (rm, header) => set { s with header := header, rm := rm }
  release b := onBlocks (mapOps.release b)

/-- A program of the block store, next to a list. -/
def besideTrace {α : Type} (p : StateT BlockStore (Except Fault) α) :
    StateT (BlockStore × List ℕ) (Except Fault) α := fun s =>
  match p.run s.1 with
  | .ok (a, t) => .ok (a, (t, s.2))
  | .error e => .error e

/-- The block store that keeps the list of the blocks that are synced. -/
def tracedOps : BlockOps (StateT (BlockStore × List ℕ) (Except Fault)) where
  acquire n := besideTrace (mapOps.acquire n)
  data b := besideTrace (mapOps.data b)
  store b d := besideTrace (mapOps.store b d)
  sync
    | none, _ => pure ()
    | some _, b => modify fun s => (s.1, s.2 ++ [b])
  release b := besideTrace (mapOps.release b)

/-! ### The header and the list -/

/-- How the sync of a new block ends when the operation may sync no more.  `cache_sync` writes
the entry before it tests `ctx->rm`; in a full header the entry lies past the array. -/
def LogHeader.overdrawn (header : LogHeader) (rm : ℕ) : Fault :=
  if header.numBlocks + rm < logMaxSize then .panic else .outOfBounds

/-- The header after the blocks of the list have been synced. -/
def absorbAll (header : LogHeader) (rm : ℕ) (l : List ℕ) : Except Fault (ℕ × LogHeader) :=
  l.foldlM (fun x n => x.2.absorb x.1 n) (rm, header)

section Absorb

variable {header : LogHeader} {rm n : ℕ} {l m : List ℕ}

theorem absorbAll_cons : absorbAll header rm (n :: l)
    = header.absorb rm n >>= fun x => absorbAll x.2 x.1 l := List.foldlM_cons

/-- A sync does not change what the header and `rm` add up to. -/
theorem LogHeader.overdrawn_absorb {rm' : ℕ} {header' : LogHeader}
    (habs : header.absorb rm n = .ok (rm', header')) :
    header'.numBlocks + rm' = header.numBlocks + rm := by
  rcases LogHeader.absorb_cases habs with ⟨-, rfl, hnum, -⟩ | ⟨-, -, hpos, rfl, hnum, -⟩
  · rw [hnum]
  · omega

theorem LogHeader.absorb_error {e : Fault} (habs : header.absorb rm n = .error e) :
    e = header.overdrawn rm := by
  have hle : header.logged.idxOf n ≤ header.numBlocks := by
    rw [← LogHeader.length_logged]
    exact List.idxOf_le_length
  simp only [LogHeader.absorb] at habs
  split at habs
  · rename_i hlt
    split at habs
    · rename_i hidx
      split at habs
      · rename_i hrm
        obtain rfl := Except.error.inj habs
        rw [LogHeader.overdrawn, if_pos (by omega)]
      · cases habs
    · cases habs
  · obtain rfl := Except.error.inj habs
    rw [LogHeader.overdrawn, if_neg (by omega)]

/-- A list that the header does not absorb. -/
theorem absorbAll_error {e : Fault} (habs : absorbAll header rm l = .error e) :
    e = header.overdrawn rm := by
  induction l generalizing header rm with
  | nil => cases habs
  | cons n l ih =>
    rw [absorbAll_cons] at habs
    cases hn : header.absorb rm n with
    | error f =>
      rw [hn] at habs
      obtain rfl := Except.error.inj habs
      exact LogHeader.absorb_error hn
    | ok r =>
      rw [hn] at habs
      have hsum := LogHeader.overdrawn_absorb hn
      have he := ih habs
      rwa [LogHeader.overdrawn, hsum, ← LogHeader.overdrawn] at he

/-- **The header absorbs the list** exactly when the blocks that are new to it are at most
`rm`. -/
theorem absorbAll_iff (hroom : header.numBlocks + rm ≤ logMaxSize) :
    (∃ r, absorbAll header rm l = .ok r) ↔
      (l.toFinset \ header.logged.toFinset).card ≤ rm := by
  induction l generalizing header rm with
  | nil => exact iff_of_true ⟨_, rfl⟩ (by simp)
  | cons n l ih =>
    rw [absorbAll_cons, List.toFinset_cons]
    by_cases hn : n ∈ header.logged
    · have habs : header.absorb rm n = .ok (rm, header.setEntry (header.logged.idxOf n) n) :=
        LogHeader.absorb_logged hn (by omega)
      rcases LogHeader.absorb_cases habs with ⟨-, -, hnum, hlog⟩ | ⟨hnot, -⟩
      · rw [habs, Finset.insert_sdiff_of_mem _ (List.mem_toFinset.mpr hn)]
        have hrest := @ih (header.setEntry (header.logged.idxOf n) n) rm (by omega)
        rwa [hlog] at hrest
      · exact absurd hn hnot
    · have hfresh : n ∉ header.logged.toFinset := fun h => hn (List.mem_toFinset.mp h)
      have hset : (insert n l.toFinset) \ header.logged.toFinset
          = insert n (l.toFinset \ (header.logged ++ [n]).toFinset) := by
        ext x
        simp only [Finset.mem_sdiff, Finset.mem_insert, List.mem_toFinset, List.mem_append,
          List.mem_singleton]
        by_cases hx : x = n
        · simp [hx, hn]
        · simp [hx]
      have hcard : (insert n (l.toFinset \ (header.logged ++ [n]).toFinset)).card
          = (l.toFinset \ (header.logged ++ [n]).toFinset).card + 1 :=
        Finset.card_insert_of_notMem (by simp)
      rw [hset, hcard]
      by_cases hrm : rm = 0
      · -- no entry is left
        refine iff_of_false ?_ (by omega)
        rintro ⟨r, hr⟩
        cases habs : header.absorb rm n with
        | error e =>
          rw [habs] at hr
          cases hr
        | ok q =>
          obtain ⟨rm', header'⟩ := q
          rcases LogHeader.absorb_cases habs with ⟨hmem, -⟩ | ⟨-, -, hpos, -⟩
          · exact hn hmem
          · omega
      · set header' : LogHeader :=
          { header.setEntry header.numBlocks n with numBlocks := header.numBlocks + 1 } with hheader'
        have habs : header.absorb rm n = .ok (rm - 1, header') :=
          LogHeader.absorb_fresh hn (by omega) (by omega)
        rcases LogHeader.absorb_cases habs with ⟨hmem, -⟩ | ⟨-, -, -, -, hnum, hlog⟩
        · exact absurd hmem hn
        · rw [habs]
          have hrest := @ih header' (rm - 1) (by omega)
          rw [hlog] at hrest
          refine hrest.trans ?_
          omega

end Absorb

/-! ### Programs -/

/-- A call is a logged sync, or it does the same to all three stores. -/
theorem answer_cases (c : BlockCall) :
    (∃ op b, c = .sync (some op) b) ∨
    (tracedOps.answer c = besideTrace (mapOps.answer c) ∧
      loggedOps.answer c = onBlocks (mapOps.answer c)) := by
  cases c with
  | sync ctx b =>
    cases ctx with
    | none => exact .inr ⟨rfl, rfl⟩
    | some op => exact .inl ⟨op, b, rfl⟩
  | _ => exact .inr ⟨rfl, rfl⟩

section Programs

variable {α σ : Type} {s t : BlockStore} {l m : List ℕ}

theorem run_interp_call {h : (c : BlockCall) → StateT σ (Except Fault) c.Ret} (c : BlockCall)
    (k : c.Ret → BlockProg α) (x : σ) :
    ((Prog.call c k).interp h).run x = (h c).run x >>= fun r => ((k r.1).interp h).run r.2 := rfl

theorem run_besideTrace {p : StateT BlockStore (Except Fault) α} (x : BlockStore × List ℕ) :
    (besideTrace p).run x = p.run x.1 >>= fun r => .ok (r.1, (r.2, x.2)) := by
  show (match p.run x.1 with
    | .ok (a, t) => Except.ok (a, (t, x.2))
    | .error e => .error e) = _
  cases p.run x.1 <;> rfl

theorem wp_besideTrace {p : StateT BlockStore (Except Fault) α} {x : BlockStore × List ℕ}
    {Q : α → BlockStore × List ℕ → Prop} {E : Fault → Prop} :
    wp (besideTrace p) Q E x ↔ wp p (fun a t => Q a (t, x.2)) E x.1 := by
  rw [wp, wp, run_besideTrace]
  cases p.run x.1 <;> rfl

theorem run_onBlocks {p : StateT BlockStore (Except Fault) α} (x : LoggedStore) :
    (onBlocks p).run x = p.run x.store >>= fun r => .ok (r.1, { x with store := r.2 }) := by
  show (match p.run x.store with
    | .ok (a, t) => Except.ok (a, { x with store := t })
    | .error e => .error e) = _
  cases p.run x.store <;> rfl

theorem wp_onBlocks {p : StateT BlockStore (Except Fault) α} {x : LoggedStore}
    {Q : α → LoggedStore → Prop} {E : Fault → Prop} :
    wp (onBlocks p) Q E x ↔ wp p (fun a t => Q a { x with store := t }) E x.store := by
  rw [wp, wp, run_onBlocks]
  cases p.run x.store <;> rfl

theorem run_sync {op b : ℕ} (x : LoggedStore) :
    (loggedOps.sync (some op) b).run x = x.header.absorb x.rm b >>= fun r =>
      .ok ((), { x with header := r.2, rm := r.1 }) := by
  show (match x.header.absorb x.rm b with
    | .error e => (throw e : StateT LoggedStore (Except Fault) Unit)
    | .ok (rm, header) => set { x with header := header, rm := rm }).run x = _
  cases x.header.absorb x.rm b <;> rfl

/-- The outcome of a program in the three stores: it fails, or it returns and syncs the
blocks of a list. -/
inductive Outcome (p : BlockProg α) (s : BlockStore) : Prop
  | fails (e : Fault) (plain : (p.interp mapOps.answer).run s = .error e)
      (traced : ∀ l, (p.interp tracedOps.answer).run (s, l) = .error e)
      (logged : ∀ header log rm, ∃ f,
        (p.interp loggedOps.answer).run ⟨s, header, log, rm⟩ = .error f)
  | returns (a : α) (t : BlockStore) (m : List ℕ)
      (plain : (p.interp mapOps.answer).run s = .ok (a, t))
      (traced : ∀ l, (p.interp tracedOps.answer).run (s, l) = .ok (a, (t, l ++ m)))
      (logged : ∀ header log rm, (p.interp loggedOps.answer).run ⟨s, header, log, rm⟩
        = absorbAll header rm m >>= fun r => .ok (a, ⟨t, r.2, log, r.1⟩))

/-- Every program has an outcome. -/
theorem outcome (p : BlockProg α) (s : BlockStore) : Outcome p s := by
  induction p generalizing s with
  | done a => exact .returns a s [] rfl (fun l => by rw [List.append_nil]; rfl) fun _ _ _ => rfl
  | fail e => exact .fails e rfl (fun _ => rfl) fun _ _ _ => ⟨e, rfl⟩
  | call c k ih =>
    rcases answer_cases c with ⟨op, b, rfl⟩ | ⟨htraced, hlogged⟩
    · have hrun : ∀ header log rm,
          ((Prog.call (.sync (some op) b) k).interp loggedOps.answer).run ⟨s, header, log, rm⟩
            = header.absorb rm b >>= fun r =>
              ((k ()).interp loggedOps.answer).run ⟨s, r.2, log, r.1⟩ := by
        intro header log rm
        rw [run_interp_call]
        show ((loggedOps.sync (some op) b).run _ >>= _) = _
        rw [run_sync]
        cases header.absorb rm b <;> rfl
      rcases ih () s with ⟨e, hp, ht, hg⟩ | ⟨a, t, m, hp, ht, hg⟩
      · refine .fails e hp (fun l => ht (l ++ [b])) fun header log rm => ?_
        rw [hrun]
        cases header.absorb rm b with
        | error f => exact ⟨f, rfl⟩
        | ok r => exact hg r.2 log r.1
      · refine .returns a t (b :: m) hp (fun l => ?_) fun header log rm => ?_
        · have h := ht (l ++ [b])
          rwa [List.append_assoc] at h
        · rw [hrun, absorbAll_cons]
          cases header.absorb rm b with
          | error f => rfl
          | ok r => exact hg r.2 log r.1
    · cases hc : (mapOps.answer c).run s with
      | error e =>
        refine .fails e ?_ (fun l => ?_) fun header log rm => ⟨e, ?_⟩
        · rw [run_interp_call, hc]
          rfl
        · rw [run_interp_call, htraced, run_besideTrace, hc]
          rfl
        · rw [run_interp_call, hlogged, run_onBlocks, hc]
          rfl
      | ok r =>
        have htr : ∀ l, ((Prog.call c k).interp tracedOps.answer).run (s, l)
            = ((k r.1).interp tracedOps.answer).run (r.2, l) := fun l => by
          rw [run_interp_call, htraced, run_besideTrace, hc]
          rfl
        have hlg : ∀ header log rm,
            ((Prog.call c k).interp loggedOps.answer).run ⟨s, header, log, rm⟩
              = ((k r.1).interp loggedOps.answer).run ⟨r.2, header, log, rm⟩ :=
          fun header log rm => by
            rw [run_interp_call, hlogged, run_onBlocks, hc]
            rfl
        have hpl : ((Prog.call c k).interp mapOps.answer).run s
            = ((k r.1).interp mapOps.answer).run r.2 := by
          rw [run_interp_call, hc]
          rfl
        rcases ih r.1 r.2 with ⟨e, hp, ht, hg⟩ | ⟨a, t, m, hp, ht, hg⟩
        · exact .fails e (hpl.trans hp) (fun l => (htr l).trans (ht l)) fun header log rm => by
            rw [hlg]
            exact hg header log rm
        · exact .returns a t m (hpl.trans hp) (fun l => (htr l).trans (ht l))
            fun header log rm => (hlg header log rm).trans (hg header log rm)

variable {p : BlockProg α}

/-- What a program does to the blocks, it does next to a list. -/
theorem wp_traced {Q : α → BlockStore → Prop} {E : Fault → Prop}
    (h : wp (p.interp mapOps.answer) Q E s) (l : List ℕ) :
    wp (p.interp tracedOps.answer) (fun a x => Q a x.1) E (s, l) := by
  rw [wp] at h ⊢
  rcases outcome p s with ⟨e, hp, ht, -⟩ | ⟨a, t, m, hp, ht, -⟩
  · rw [hp] at h
    rw [ht]
    exact h
  · rw [hp] at h
    rw [ht]
    exact h

/-- **A program returns over the log** exactly when it returns next to a list, and the
blocks of the list that the header does not have are at most `rm`. -/
theorem logged_run_iff {header : LogHeader} {log : Log} {rm : ℕ}
    (hroom : header.numBlocks + rm ≤ logMaxSize) (a : α) :
    (∃ x, (p.interp loggedOps.answer).run ⟨s, header, log, rm⟩ = .ok (a, x)) ↔
      ∃ t m, (p.interp tracedOps.answer).run (s, []) = .ok (a, (t, m)) ∧
        (m.toFinset \ header.logged.toFinset).card ≤ rm := by
  rcases outcome p s with ⟨e, -, ht, hg⟩ | ⟨b, t, m, -, ht, hg⟩
  · obtain ⟨f, hf⟩ := hg header log rm
    refine iff_of_false ?_ ?_
    · rintro ⟨x, hx⟩
      rw [hf] at hx
      cases hx
    · rintro ⟨t, m, hx, -⟩
      rw [ht] at hx
      cases hx
  · have habs := absorbAll_iff (l := m) hroom
    rw [hg, ht]
    constructor
    · rintro ⟨x, hx⟩
      cases hm : absorbAll header rm m with
      | error e =>
        rw [hm] at hx
        cases hx
      | ok r =>
        rw [hm] at hx
        cases hx
        exact ⟨t, m, rfl, habs.mp ⟨r, hm⟩⟩
    · rintro ⟨u, m', hx, hcard⟩
      cases hx
      obtain ⟨r, hr⟩ := habs.mpr hcard
      rw [hr]
      exact ⟨_, rfl⟩

/-- What a program does over the log, from what it does next to a list: it returns exactly
when the blocks of the list that the header does not have are at most `rm`. -/
theorem wp_logged {Q : α → BlockStore × List ℕ → Prop} {E : Fault → Prop} {header : LogHeader}
    {log : Log} {rm : ℕ} (h : wp (p.interp tracedOps.answer) Q E (s, []))
    (hroom : header.numBlocks + rm ≤ logMaxSize) :
    wp (p.interp loggedOps.answer)
      (fun a x => ∃ m, Q a (x.store, m) ∧ (m.toFinset \ header.logged.toFinset).card ≤ rm)
      (fun f => (∃ e, E e) ∨ f = header.overdrawn rm ∧
        ∃ a t m, Q a (t, m) ∧ rm < (m.toFinset \ header.logged.toFinset).card)
      ⟨s, header, log, rm⟩ := by
  rw [wp] at h ⊢
  rcases outcome p s with ⟨e, -, ht, hg⟩ | ⟨a, t, m, -, ht, hg⟩
  · obtain ⟨f, hf⟩ := hg header log rm
    rw [ht] at h
    rw [hf]
    exact .inl ⟨e, h⟩
  · have habs := absorbAll_iff (l := m) hroom
    rw [ht] at h
    rw [hg]
    cases hm : absorbAll header rm m with
    | error e =>
      refine .inr ⟨absorbAll_error hm, a, t, m, h, ?_⟩
      by_contra hle
      obtain ⟨r, hr⟩ := habs.mpr (by omega)
      rw [hm] at hr
      cases hr
    | ok r => exact ⟨m, h, habs.mp ⟨r, hm⟩⟩

/-- A program does not touch `log`. -/
theorem logged_run_log {x y : LoggedStore} {a : α}
    (h : (p.interp loggedOps.answer).run x = .ok (a, y)) : y.log = x.log := by
  obtain ⟨store, header, log, rm⟩ := x
  rcases outcome p store with ⟨e, -, -, hg⟩ | ⟨b, t, m, -, -, hg⟩
  · obtain ⟨f, hf⟩ := hg header log rm
    rw [hf] at h
    cases h
  · rw [hg] at h
    cases hm : absorbAll header rm m with
    | error e =>
      rw [hm] at h
      cases h
    | ok r =>
      rw [hm] at h
      cases h
      rfl

end Programs

end OsLab
