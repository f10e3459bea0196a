/-
`memmove` of `common/string.c`, over the bytes at all addresses.

Addresses are 64 bits wide, and so are the distances between them.  `Memory.moved m dest src lo hi`
is the memory in which the bytes of `src` with the numbers from `lo` to `hi` have come to `dest`,
and nothing else has changed.

* `moveUp_moved`, `moveDown_moved` — the loops, when no byte is overwritten before it is read;
* `memmove_moved` — the direction is always the right one;
* `memmove_copies` — so the bytes arrive, and no other byte changes.
-/
import Mathlib.Algebra.Order.Ring.Nat
import Mathlib.Logic.Function.Basic
import Mathlib.Tactic.Common

namespace OsLab

/-- The byte at each address. -/
abbrev Memory := BitVec 64 → UInt8

/-- `while (n-- > 0) *d++ = *s++;` -/
def moveUp (m : Memory) (d s : BitVec 64) : ℕ → Memory
  | 0 => m
  | n + 1 => moveUp (Function.update m d (m s)) (d + 1) (s + 1) n

/-- `while (n-- > 0) *--d = *--s;` -/
def moveDown (m : Memory) (d s : BitVec 64) : ℕ → Memory
  | 0 => m
  | n + 1 => moveDown (Function.update m (d - 1) (m (s - 1))) (d - 1) (s - 1) n

/-- `memmove`: what it returns, and the memory. -/
def memmove (m : Memory) (dest src n : BitVec 64) : BitVec 64 × Memory :=
  let s := src
  let d := dest
  if s < d ∧ d - s < n then (dest, moveDown m (d + n) (s + n) n.toNat)
  else (dest, moveUp m d s n.toNat)

namespace Memory

/-- The bytes from `lo` to `hi` of `src` are at `dest`. -/
def moved (m : Memory) (dest src : BitVec 64) (lo hi : ℕ) : Memory := fun a =>
  if lo ≤ (a - dest).toNat ∧ (a - dest).toNat < hi then m (src + (a - dest)) else m a

end Memory

variable {m : Memory} {dest src : BitVec 64} {lo hi k n : ℕ}

theorem moved_empty (hle : hi ≤ lo) : m.moved dest src lo hi = m := by
  funext a
  exact if_neg (by omega)

theorem offset_succ (p : BitVec 64) (i : ℕ) :
    p + BitVec.ofNat 64 (i + 1) = p + 1 + BitVec.ofNat 64 i := by
  rw [Nat.add_comm, BitVec.ofNat_add, ← BitVec.add_assoc]
  rfl

/-- The number of a byte. -/
theorem toNat_offset (hk : k < 2 ^ 64) : (dest + BitVec.ofNat 64 k - dest).toNat = k := by
  rw [BitVec.add_comm, BitVec.add_sub_cancel, BitVec.toNat_ofNat, Nat.mod_eq_of_lt hk]

/-- An address is the one of a byte of `dest` if its distance is the number of the byte. -/
theorem eq_add_iff {a : BitVec 64} (hk : k < 2 ^ 64) :
    a = dest + BitVec.ofNat 64 k ↔ (a - dest).toNat = k := by
  constructor
  · rintro rfl
    exact toNat_offset hk
  · intro h
    rw [← h, BitVec.ofNat_toNat, BitVec.setWidth_eq, BitVec.add_comm, BitVec.sub_add_cancel]

/-- One more byte is moved, `k`, which has not been overwritten yet. -/
theorem update_moved (lo' hi' : ℕ) (hk : k < 2 ^ 64)
    (hrange : ∀ j, (lo' ≤ j ∧ j < hi') ↔ (lo ≤ j ∧ j < hi) ∨ j = k)
    (hread : m.moved dest src lo hi (src + BitVec.ofNat 64 k) = m (src + BitVec.ofNat 64 k)) :
    Function.update (m.moved dest src lo hi) (dest + BitVec.ofNat 64 k)
      (m.moved dest src lo hi (src + BitVec.ofNat 64 k)) = m.moved dest src lo' hi' := by
  funext a
  rw [hread]
  by_cases ha : a = dest + BitVec.ofNat 64 k
  · have hak := (eq_add_iff hk).mp ha
    have hin := (hrange k).mpr (Or.inr rfl)
    rw [ha, Function.update_self, Memory.moved, ← ha, hak, if_pos hin, ha, BitVec.add_comm dest,
      BitVec.add_sub_cancel]
  · have hak : (a - dest).toNat ≠ k := fun h => ha ((eq_add_iff hk).mpr h)
    rw [Function.update_of_ne ha]
    refine if_congr ?_ rfl rfl
    rw [hrange]
    exact ⟨Or.inl, fun h => h.resolve_right hak⟩

/-- A byte that has been moved. -/
theorem moved_at (hn : n ≤ 2 ^ 64) (hk : k < n) :
    m.moved dest src 0 n (dest + BitVec.ofNat 64 k) = m (src + BitVec.ofNat 64 k) := by
  have hoff : (dest + BitVec.ofNat 64 k - dest).toNat = k := toNat_offset (by omega)
  rw [Memory.moved, hoff, if_pos ⟨Nat.zero_le k, hk⟩, BitVec.add_comm dest, BitVec.add_sub_cancel]

/-- A byte that is not in `dest`. -/
theorem moved_of_ne {a : BitVec 64} (ha : ∀ k < n, a ≠ dest + BitVec.ofNat 64 k) :
    m.moved dest src 0 n a = m a := by
  refine if_neg fun h => ha _ h.2 ?_
  rw [BitVec.ofNat_toNat, BitVec.setWidth_eq, BitVec.add_comm, BitVec.sub_add_cancel]

/-- **Upwards**: the bytes below `k` have been moved, and no byte is overwritten before it is
read when `dest` is not behind `src` at less than the length. -/
theorem moveUp_moved (m : Memory) (dest src : BitVec 64) (hn : n ≤ 2 ^ 64)
    (hfar : (dest - src).toNat = 0 ∨ n ≤ (dest - src).toNat) :
    ∀ j k, k + j = n → moveUp (m.moved dest src 0 k) (dest + BitVec.ofNat 64 k)
      (src + BitVec.ofNat 64 k) j = m.moved dest src 0 n := by
  intro j
  induction j with
  | zero =>
    intro k hk
    rw [moveUp, ← hk, Nat.add_zero]
  | succ j ih =>
    intro k hk
    have hk64 : k < 2 ^ 64 := by omega
    -- byte `k` of `src` is none of the first `k` of `dest`
    have hread : m.moved dest src 0 k (src + BitVec.ofNat 64 k) = m (src + BitVec.ofNat 64 k) := by
      refine if_neg fun h => ?_
      have hlt := h.2
      bv_omega
    rw [moveUp, update_moved 0 (k + 1) hk64 (fun j => by omega) hread, BitVec.add_assoc, BitVec.add_assoc]
    have hnext := ih (k + 1) (by omega)
    rw [BitVec.ofNat_add] at hnext
    exact hnext

/-- **Downwards**: the bytes from `k` on have been moved. -/
theorem moveDown_moved (m : Memory) (dest src : BitVec 64) (hn : n < 2 ^ 64)
    (hnear : (dest - src).toNat + n ≤ 2 ^ 64) (hne : (dest - src).toNat ≠ 0) :
    ∀ k, k ≤ n → moveDown (m.moved dest src k n) (dest + BitVec.ofNat 64 k)
      (src + BitVec.ofNat 64 k) k = m.moved dest src 0 n := by
  intro k
  induction k with
  | zero => exact fun _ => rfl
  | succ k ih =>
    intro hk
    have hk64 : k < 2 ^ 64 := by omega
    -- nor one of the last ones, if `dest` is behind `src`
    have hread : m.moved dest src (k + 1) n (src + BitVec.ofNat 64 k) =
        m (src + BitVec.ofNat 64 k) := by
      refine if_neg fun h => ?_
      obtain ⟨hlo, hhi⟩ := h
      bv_omega
    have hpred : ∀ p : BitVec 64, p + BitVec.ofNat 64 (k + 1) - 1 = p + BitVec.ofNat 64 k := by
      intro p
      bv_omega
    rw [moveDown, hpred, hpred, update_moved k n hk64 (fun j => by omega) hread]
    exact ih (by omega)

/-- The direction is the right one for each overlap. -/
theorem memmove_moved {n : BitVec 64} (hsrc : src.toNat + n.toNat ≤ 2 ^ 64)
    (hdest : dest.toNat + n.toNat ≤ 2 ^ 64) :
    memmove m dest src n = (dest, m.moved dest src 0 n.toNat) := by
  have hn := n.isLt
  unfold memmove
  by_cases hback : src < dest ∧ dest - src < n
  · obtain ⟨hlt, hnear⟩ := hback
    have hdown := moveDown_moved m dest src hn (by bv_omega) (by bv_omega)
      n.toNat le_rfl
    rw [moved_empty le_rfl, BitVec.ofNat_toNat, BitVec.setWidth_eq] at hdown
    rw [if_pos ⟨hlt, hnear⟩, hdown]
  · have hup := moveUp_moved m dest src hn.le (by bv_omega)
      n.toNat 0 (Nat.zero_add _)
    rw [moved_empty le_rfl, BitVec.add_zero, BitVec.add_zero] at hup
    rw [if_neg hback, hup]

/-- **`memmove`** brings the bytes of `src` to `dest`, however the ranges overlap, and changes no
other byte. -/
theorem memmove_copies (m : Memory) (dest src n : BitVec 64) (hsrc : src.toNat + n.toNat ≤ 2 ^ 64)
    (hdest : dest.toNat + n.toNat ≤ 2 ^ 64) :
    (memmove m dest src n).1 = dest ∧
    (∀ i < n.toNat, (memmove m dest src n).2 (dest + BitVec.ofNat 64 i) =
      m (src + BitVec.ofNat 64 i)) ∧
    ∀ a, (∀ i < n.toNat, a ≠ dest + BitVec.ofNat 64 i) → (memmove m dest src n).2 a = m a := by
  rw [memmove_moved hsrc hdest]
  exact ⟨rfl, fun i hi => moved_at n.isLt.le hi, fun a ha => moved_of_ne ha⟩

/-- Four bytes are moved up by two places, and down by one. -/
theorem memmove_copies_overlap :
    (memmove (fun a => UInt8.ofNat a.toNat) 0x1002 0x1000 4).2 0x1005 = 3 ∧
    (memmove (fun a => UInt8.ofNat a.toNat) 0x0fff 0x1000 4).2 0x1002 = 3 := by
  have hup := (memmove_copies (fun a => UInt8.ofNat a.toNat) 0x1002 0x1000 4 (by decide)
    (by decide)).2.1 3 (by decide)
  have hdown := (memmove_copies (fun a => UInt8.ofNat a.toNat) 0x0fff 0x1000 4 (by decide)
    (by decide)).2.1 3 (by decide)
  exact ⟨hup, hdown⟩

end OsLab
