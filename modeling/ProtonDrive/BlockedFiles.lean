import Mathlib.Data.List.TakeDrop
import Mathlib.Algebra.Order.Group.Nat
import Mathlib.Tactic.Ring

/-!
# Files in blocks

A sequence cut into consecutive blocks of one size, the last one possibly shorter, and what
is left of a run of blocks once the part before an offset is trimmed.
-/

namespace ProtonDrive.BlockedFiles

variable {α : Type}

/-- The `i`-th block, counted from zero. -/
def chunk (B : ℕ) (F : List α) (i : ℕ) : List α := (F.drop (i * B)).take B

/-- The number of blocks. -/
def chunkCount (B : ℕ) (F : List α) : ℕ := (F.length + B - 1) / B

/-- A prefix of the given length; length zero stands for everything. -/
def limit (length : ℕ) (xs : List α) : List α := if length = 0 then xs else xs.take length

variable {B : ℕ} {F : List α}

theorem flatMap_chunk (k m : ℕ) :
    (List.range' k m).flatMap (chunk B F) = (F.drop (k * B)).take (m * B) := by
  induction m generalizing k with
  | zero => simp
  | succ m ih =>
    have hm : (m + 1) * B = B + m * B := by ring
    have hk : (k + 1) * B = k * B + B := by ring
    rw [List.range'_succ, List.flatMap_cons, ih, chunk, hm, hk, List.take_add, List.drop_drop]

theorem length_le_chunkCount (hB : 0 < B) : F.length ≤ chunkCount B F * B := by
  simp only [chunkCount]
  have hd := Nat.div_add_mod (F.length + B - 1) B
  have hm := Nat.mod_lt (F.length + B - 1) hB
  rw [Nat.mul_comm] at hd
  omega

/-- Asking for more blocks than there are changes nothing. -/
theorem flatMap_chunk_available (hB : 0 < B) (k m : ℕ) :
    (List.range' k (min m (chunkCount B F - k))).flatMap (chunk B F) =
      (F.drop (k * B)).take (m * B) := by
  rw [flatMap_chunk]
  rcases Nat.le_total m (chunkCount B F - k) with h | h
  · rw [Nat.min_eq_left h]
  · rw [Nat.min_eq_right h]
    have hlen : (F.drop (k * B)).length ≤ (chunkCount B F - k) * B := by
      have hc := length_le_chunkCount (F := F) hB
      rw [List.length_drop, Nat.sub_mul]
      omega
    rw [List.take_of_length_le hlen, List.take_of_length_le (hlen.trans (Nat.mul_le_mul_right B h))]

/-- Trimming a run of blocks that starts at or before the offset. -/
theorem drop_take_chunks {k o : ℕ} (h : k * B ≤ o) (m : ℕ) :
    ((F.drop (k * B)).take (m * B)).drop (o - k * B) = (F.drop o).take ((k + m) * B - o) := by
  rw [List.drop_take, List.drop_drop, Nat.add_sub_cancel' h, Nat.add_mul]
  congr 1
  omega

/-- A prefix that stops at a bound is complete exactly when the range ends before the bound. -/
theorem limit_take_eq_iff {l o e : ℕ} :
    limit l ((F.drop o).take (e - o)) = limit l (F.drop o) ↔
      F.length ≤ e ∨ (l ≠ 0 ∧ o + l ≤ e) ∨ F.length ≤ o := by
  simp only [limit]
  split_ifs with hl
  · rw [List.take_eq_self_iff, List.length_drop]
    omega
  · rw [List.take_take, List.take_eq_take_iff, List.length_drop]
    omega

end ProtonDrive.BlockedFiles
