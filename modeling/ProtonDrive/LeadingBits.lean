import Mathlib.Data.List.Induction
import Mathlib.Algebra.Order.Ring.Nat
import Mathlib.Tactic.Ring

/-!
# Leading bits of a numeral

The value of a numeral in bits, the most significant one first, and of one in hexadecimal digits. A
value is below a power of two exactly when the bits above that power are all zero.
-/

namespace ProtonDrive.LeadingBits

section Bits

def value (bits : List Bool) : ℕ := bits.foldl (fun v b => 2 * v + b.toNat) 0

@[simp] theorem value_nil : value [] = 0 := rfl

theorem value_concat (bits : List Bool) (b : Bool) :
    value (bits ++ [b]) = 2 * value bits + b.toNat := by
  simp [value]

theorem value_append (xs ys : List Bool) :
    value (xs ++ ys) = value xs * 2 ^ ys.length + value ys := by
  induction ys using List.reverseRecOn with
  | nil => simp
  | append_singleton ys b ih =>
    rw [← List.append_assoc, value_concat, ih, value_concat, List.length_append,
      List.length_singleton, pow_succ]
    ring

theorem value_lt (bits : List Bool) : value bits < 2 ^ bits.length := by
  induction bits using List.reverseRecOn with
  | nil => exact Nat.one_pos
  | append_singleton bits b ih =>
    rw [value_concat, List.length_append, List.length_singleton, pow_succ]
    have hb : b.toNat ≤ 1 := b.toNat_le
    omega

theorem value_eq_zero_iff {bits : List Bool} : value bits = 0 ↔ ∀ b ∈ bits, b = false := by
  induction bits using List.reverseRecOn with
  | nil => simp
  | append_singleton bits b ih =>
    rw [value_concat, Nat.add_eq_zero_iff, mul_eq_zero, or_iff_right (by decide), ih]
    cases b <;> simp [or_imp, forall_and]

/-- A value below a power of two has no bit set above it. -/
theorem value_lt_two_pow_iff {bits : List Bool} {n : ℕ} :
    value bits < 2 ^ (bits.length - n) ↔ ∀ b ∈ bits.take n, b = false := by
  have hsplit : value bits =
      value (bits.take n) * 2 ^ (bits.length - n) + value (bits.drop n) := by
    rw [← List.length_drop, ← value_append, List.take_append_drop]
  have hlow : value (bits.drop n) < 2 ^ (bits.length - n) :=
    List.length_drop ▸ value_lt (bits.drop n)
  rw [← value_eq_zero_iff, hsplit]
  constructor
  · intro h
    by_contra hne
    have hone : 1 * 2 ^ (bits.length - n) ≤ value (bits.take n) * 2 ^ (bits.length - n) :=
      Nat.mul_le_mul_right _ (Nat.one_le_iff_ne_zero.mpr hne)
    omega
  · intro h
    rw [h, zero_mul, zero_add]
    exact hlow

end Bits

section Digits

def hexValue (digits : List (Fin 16)) : ℕ := digits.foldl (fun v d => 16 * v + d.1) 0

def nibble (d : Fin 16) : List Bool := [d.1.testBit 3, d.1.testBit 2, d.1.testBit 1, d.1.testBit 0]

def hexBits (digits : List (Fin 16)) : List Bool := digits.flatMap nibble

theorem value_nibble : ∀ d : Fin 16, value (nibble d) = d := by decide

@[simp] theorem length_hexBits (digits : List (Fin 16)) :
    (hexBits digits).length = 4 * digits.length := by
  induction digits with
  | nil => rfl
  | cons d digits ih =>
    rw [hexBits, List.flatMap_cons, List.length_append, ← hexBits, ih, List.length_cons]
    simp only [nibble, List.length_cons, List.length_nil]
    ring

theorem hexValue_eq (digits : List (Fin 16)) : hexValue digits = value (hexBits digits) := by
  induction digits using List.reverseRecOn with
  | nil => rfl
  | append_singleton digits d ih =>
    have hbits : hexBits (digits ++ [d]) = hexBits digits ++ nibble d := by
      simp [hexBits]
    rw [hbits, value_append, ← ih, value_nibble]
    simp only [hexValue, List.foldl_append, List.foldl_cons, List.foldl_nil, nibble,
      List.length_cons, List.length_nil]
    ring

theorem take_hexBits (digits : List (Fin 16)) (g : ℕ) :
    hexBits (digits.take g) = (hexBits digits).take (4 * g) := by
  induction digits generalizing g with
  | nil => simp [hexBits]
  | cons d digits ih =>
    cases g with
    | zero => simp [hexBits]
    | succ g =>
      have hnibble : (nibble d).length = 4 := rfl
      have hcons : ∀ ds, hexBits (d :: ds) = nibble d ++ hexBits ds := fun _ => rfl
      have hshort : (nibble d).length ≤ 4 * (g + 1) := by omega
      rw [List.take_succ_cons, hcons, hcons, ih, List.take_append, List.take_of_length_le hshort,
        hnibble, show 4 * (g + 1) - 4 = 4 * g by omega]

end Digits

end ProtonDrive.LeadingBits
