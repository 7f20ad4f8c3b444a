import Mathlib.Data.List.Chain
import Mathlib.Data.List.Perm.Basic
import Mathlib.Data.Set.Insert

/-!
# Signals that switch keys on and off

A log of signals, each of which switches one key on or off, and the set of keys that such a log
leaves on. Signals of any type will do: they are read through their key and their direction.
-/

namespace ProtonDrive.Alternation

variable {σ κ : Type} [DecidableEq κ] {key : σ → κ} {up : σ → Bool} {log : List σ} {S : Set κ}
  {k : κ} {s : σ}

/-- The directions of the signals for one key, in the order of the log. -/
def trace (key : σ → κ) (up : σ → Bool) (k : κ) (log : List σ) : List Bool :=
  (log.filter (fun s => key s = k)).map up

/-- Strictly alternating, on first. -/
def Alternates (bs : List Bool) : Prop := bs.head? ≠ some false ∧ bs.IsChain (· ≠ ·)

/-- Every key is switched on and off in turn, and the log leaves the keys in `S` on. -/
structure Describes (key : σ → κ) (up : σ → Bool) (log : List σ) (S : Set κ) : Prop where
  alternates : ∀ k, Alternates (trace key up k log)
  mem_iff : ∀ k, k ∈ S ↔ (trace key up k log).getLast? = some true

theorem trace_append_self (h : key s = k) :
    trace key up k (log ++ [s]) = trace key up k log ++ [up s] := by
  simp [trace, h]

theorem trace_append_ne (h : key s ≠ k) : trace key up k (log ++ [s]) = trace key up k log := by
  simp [trace, h]

theorem alternates_nil : Alternates [] := ⟨by simp, .nil⟩

/-- The trace may go on with the direction it did not end with. -/
theorem Alternates.append {bs : List Bool} {b : Bool} (h : Alternates bs)
    (hb : b = true ↔ bs.getLast? ≠ some true) : Alternates (bs ++ [b]) := by
  cases bs with
  | nil => exact ⟨by simpa using hb, List.isChain_singleton b⟩
  | cons c cs =>
    refine ⟨by simpa using h.1, List.isChain_append.mpr ⟨h.2, List.isChain_singleton b, ?_⟩⟩
    intro x hx y hy
    obtain rfl : b = y := by simpa using hy
    rintro rfl
    rw [Option.mem_def] at hx
    rw [hx] at hb
    cases x <;> simp at hb

theorem describes_nil : Describes key up [] ∅ where
  alternates _ := alternates_nil
  mem_iff _ := by simp [trace]

/-- A key that is off is switched on. -/
theorem Describes.switchOn (h : Describes key up log S) (hs : key s = k) (hk : k ∉ S)
    (hup : up s = true) : Describes key up (log ++ [s]) (insert k S) where
  alternates j := by
    by_cases hj : key s = j
    · rw [trace_append_self hj]
      refine (h.alternates j).append ?_
      have hlast := mt (h.mem_iff k).mpr hk
      rw [← hs, hj] at hlast
      simp [hup, hlast]
    · rw [trace_append_ne hj]
      exact h.alternates j
  mem_iff j := by
    by_cases hj : key s = j
    · rw [trace_append_self hj]
      simp [hup, ← hj, hs]
    · rw [trace_append_ne hj, ← h.mem_iff j]
      simp [← hs, Ne.symm hj]

/-- A key that is on is switched off. -/
theorem Describes.switchOff (h : Describes key up log S) (hs : key s = k) (hk : k ∈ S)
    (hup : up s = false) : Describes key up (log ++ [s]) (S \ {k}) where
  alternates j := by
    by_cases hj : key s = j
    · rw [trace_append_self hj]
      refine (h.alternates j).append ?_
      have hlast := (h.mem_iff k).mp hk
      rw [← hs, hj] at hlast
      simp [hup, hlast]
    · rw [trace_append_ne hj]
      exact h.alternates j
  mem_iff j := by
    by_cases hj : key s = j
    · rw [trace_append_self hj]
      simp [hup, ← hj, hs]
    · rw [trace_append_ne hj, ← h.mem_iff j]
      simp [← hs, Ne.symm hj]

end ProtonDrive.Alternation
