import Mathlib.Data.List.Basic
import Mathlib.Tactic.SplitIfs

/-!
# Percent escapes

Texts over bytes in which some characters stand for themselves and every other byte is written as a
percent sign with two hexadecimal digits. Whatever is kept as it is, the bytes can be read back, so
different bytes have different escapes.
-/

namespace ProtonDrive.PercentEscapes

def hexDigits : List Char :=
  ['0', '1', '2', '3', '4', '5', '6', '7', '8', '9', 'A', 'B', 'C', 'D', 'E', 'F']

def hexDigit (n : ℕ) : Char := hexDigits.getD n '0'

/-- The value of a digit as it is written here. -/
def digitValue (c : Char) : Option ℕ := hexDigits.findIdx? (· = c)

/-- The characters that stand for themselves: ASCII, and not the percent sign. -/
structure Kept where
  chars : List Char
  ascii : ∀ c ∈ chars, c.toNat < 128
  percent : '%' ∉ chars

def charOf (b : UInt8) : Char := Char.ofNat b.toNat

def escapeByte (K : Kept) (b : UInt8) : List Char :=
  if charOf b ∈ K.chars then [charOf b]
  else ['%', hexDigit (b.toNat / 16), hexDigit (b.toNat % 16)]

def escape (K : Kept) (bytes : List UInt8) : List Char := bytes.flatMap (escapeByte K)

/-- Read a text back; `none` if a percent sign is not followed by two digits or a character is not
ASCII. -/
def unescape : List Char → Option (List UInt8)
  | [] => some []
  | '%' :: h :: l :: rest =>
    (digitValue h).bind fun h => (digitValue l).bind fun l =>
      (unescape rest).map (UInt8.ofNat (h * 16 + l) :: ·)
  | c :: rest =>
    if c ≠ '%' ∧ c.toNat < 128 then (unescape rest).map (UInt8.ofNat c.toNat :: ·) else none

/-- The bytes of a text in UTF-8. -/
def bytesOf (s : String) : List UInt8 := s.toUTF8.data.toList

theorem bytesOf_injective : Function.Injective bytesOf := by
  intro s t h
  exact String.toByteArray_inj.mp (ByteArray.ext (Array.toList_inj.mp h))

section Escapes

variable {K : Kept} {b : UInt8} {bytes : List UInt8}

theorem digitValue_hexDigit : ∀ n < 16, digitValue (hexDigit n) = some n := by decide

theorem hexDigit_mem : ∀ n < 16, hexDigit n ∈ hexDigits := by decide

theorem toNat_charOf (b : UInt8) : (charOf b).toNat = b.toNat := by
  have hb : b.toNat < 256 := b.toNat_lt
  have hvalid : b.toNat.isValidChar := .inl (by omega)
  rw [charOf, Char.ofNat, dif_pos hvalid]
  rfl

theorem unescape_cons {c : Char} (hne : c ≠ '%') (hascii : c.toNat < 128) (rest : List Char) :
    unescape (c :: rest) = (unescape rest).map (UInt8.ofNat c.toNat :: ·) := by
  rw [unescape, if_pos ⟨hne, hascii⟩]
  rintro h l rest' rfl
  exact absurd rfl hne

/-- One byte is read back from the front of a text. -/
theorem unescape_escapeByte (K : Kept) (b : UInt8) (rest : List Char) :
    unescape (escapeByte K b ++ rest) = (unescape rest).map (b :: ·) := by
  have hb : b.toNat < 256 := b.toNat_lt
  rw [escapeByte]
  split_ifs with hk
  · have hne : charOf b ≠ '%' := fun h => K.percent (h ▸ hk)
    have hascii : (charOf b).toNat < 128 := K.ascii _ hk
    rw [List.singleton_append, unescape_cons hne hascii, toNat_charOf, UInt8.ofNat_toNat]
  · have hhigh := digitValue_hexDigit (b.toNat / 16) (by omega)
    have hlow := digitValue_hexDigit (b.toNat % 16) (Nat.mod_lt _ (by decide))
    have hbyte : UInt8.ofNat (b.toNat / 16 * 16 + b.toNat % 16) = b := by
      rw [Nat.mul_comm, Nat.div_add_mod, UInt8.ofNat_toNat]
    simp only [List.cons_append, List.nil_append, unescape, hhigh, hlow, Option.bind_some, hbyte]

theorem unescape_escape (K : Kept) (bytes : List UInt8) :
    unescape (escape K bytes) = some bytes := by
  induction bytes with
  | nil => rfl
  | cons b bytes ih =>
    rw [escape, List.flatMap_cons, unescape_escapeByte, ← escape, ih]
    rfl

theorem escape_injective (K : Kept) : Function.Injective (escape K) := by
  intro bytes bytes' h
  have hsome := unescape_escape K bytes
  rw [h, unescape_escape] at hsome
  exact (Option.some.inj hsome).symm

theorem mem_escape {c : Char} (h : c ∈ escape K bytes) :
    c ∈ K.chars ∨ c = '%' ∨ c ∈ hexDigits := by
  obtain ⟨b, -, hc⟩ := List.mem_flatMap.mp h
  have hlt : b.toNat / 16 < 16 := by
    have hb : b.toNat < 256 := b.toNat_lt
    omega
  rw [escapeByte] at hc
  split_ifs at hc with hk
  · rw [List.mem_singleton.mp hc]
    exact .inl hk
  · simp only [List.mem_cons, List.not_mem_nil, or_false] at hc
    rcases hc with rfl | rfl | rfl
    · exact .inr (.inl rfl)
    · exact .inr (.inr (hexDigit_mem _ hlt))
    · exact .inr (.inr (hexDigit_mem _ (Nat.mod_lt _ (by decide))))

/-- Only which characters are kept matters. -/
theorem escape_congr {K K' : Kept} (h : ∀ c, c ∈ K.chars ↔ c ∈ K'.chars) :
    escape K = escape K' := by
  funext bytes
  have hbyte : escapeByte K = escapeByte K' := by
    funext b
    rw [escapeByte, escapeByte, if_congr (h _) rfl rfl]
  rw [escape, escape, hbyte]

end Escapes

end ProtonDrive.PercentEscapes
