import Mathlib.Data.List.Basic
import Mathlib.Tactic.SplitIfs

/-!
# Base64

The standard alphabet with padding. One encoder, and two decoders: a lenient one that skips
what is not in the alphabet and never fails, and a strict one that skips line breaks only and
wants whole groups with the padding at the end. Both give back what was encoded.
-/

namespace ProtonDrive.Base64Texts

def alphabet : List Char :=
  ['A', 'B', 'C', 'D', 'E', 'F', 'G', 'H', 'I', 'J', 'K', 'L', 'M', 'N', 'O', 'P',
   'Q', 'R', 'S', 'T', 'U', 'V', 'W', 'X', 'Y', 'Z', 'a', 'b', 'c', 'd', 'e', 'f',
   'g', 'h', 'i', 'j', 'k', 'l', 'm', 'n', 'o', 'p', 'q', 'r', 's', 't', 'u', 'v',
   'w', 'x', 'y', 'z', '0', '1', '2', '3', '4', '5', '6', '7', '8', '9', '+', '/']

/-- The character of six bits. -/
def char (n : ℕ) : Char := alphabet.getD n 'A'

/-- The six bits of a character; `none` for what is not in the alphabet. -/
def rank (c : Char) : Option ℕ := alphabet.findIdx? (· = c)

/-- The low eight bits. -/
def byte (n : ℕ) : UInt8 := UInt8.ofNat n

def encode : List UInt8 → List Char
  | [] => []
  | [b₀] =>
    let n := b₀.toNat * 65536
    [char (n / 262144 % 64), char (n / 4096 % 64), '=', '=']
  | [b₀, b₁] =>
    let n := b₀.toNat * 65536 + b₁.toNat * 256
    [char (n / 262144 % 64), char (n / 4096 % 64), char (n / 64 % 64), '=']
  | b₀ :: b₁ :: b₂ :: rest =>
    let n := b₀.toNat * 65536 + b₁.toNat * 256 + b₂.toNat
    char (n / 262144 % 64) :: char (n / 4096 % 64) :: char (n / 64 % 64) :: char (n % 64) ::
      encode rest

section Lenient

/-- The lenient decoder counts padding as zero bits. -/
def rankPadded (c : Char) : Option ℕ := if c = '=' then some 0 else rank c

/-- Groups of four; padding in the last two places takes a byte away, and an incomplete group is
dropped. -/
def decodeGroups : List (Char × ℕ) → List UInt8
  | (_, r₀) :: (_, r₁) :: (c₂, r₂) :: (c₃, r₃) :: rest =>
    let n := ((r₀ * 64 + r₁) * 64 + r₂) * 64 + r₃
    byte (n / 65536) :: ((if c₂ = '=' then [] else [byte (n / 256)]) ++
      (if c₃ = '=' then [] else [byte n]) ++ decodeGroups rest)
  | _ => []

def ranked (text : List Char) : List (Char × ℕ) :=
  text.filterMap fun c => (rankPadded c).map fun r => (c, r)

def decode (text : List Char) : List UInt8 := decodeGroups (ranked text)

end Lenient

section Strict

/-- The last group may be padded; what follows it is an error. -/
def decodeStrictGroups : List Char → Option (List UInt8)
  | [] => some []
  | [c₀, c₁, '=', '='] => do
    let r₀ ← rank c₀
    let r₁ ← rank c₁
    some [byte ((r₀ * 64 + r₁) / 16)]
  | [c₀, c₁, c₂, '='] => do
    let r₀ ← rank c₀
    let r₁ ← rank c₁
    let r₂ ← rank c₂
    let n := (r₀ * 64 + r₁) * 64 + r₂
    some [byte (n / 1024), byte (n / 4)]
  | c₀ :: c₁ :: c₂ :: c₃ :: rest => do
    let r₀ ← rank c₀
    let r₁ ← rank c₁
    let r₂ ← rank c₂
    let r₃ ← rank c₃
    let n := ((r₀ * 64 + r₁) * 64 + r₂) * 64 + r₃
    let tail ← decodeStrictGroups rest
    some (byte (n / 65536) :: byte (n / 256) :: byte n :: tail)
  | _ => none

def decodeStrict (text : List Char) : Option (List UInt8) :=
  decodeStrictGroups (text.filter fun c => c ≠ '\n' ∧ c ≠ '\r')

end Strict

section Alphabet

theorem alphabet_spec : ∀ n < 64, rank (char n) = some n ∧ char n ≠ '=' ∧ char n ≠ '\n' ∧
    char n ≠ '\r' := by decide +kernel

variable {n : ℕ}

theorem rank_char (h : n < 64) : rank (char n) = some n := (alphabet_spec n h).1

theorem char_ne_pad (h : n < 64) : char n ≠ '=' := (alphabet_spec n h).2.1

theorem rankPadded_char (h : n < 64) : rankPadded (char n) = some n := by
  rw [rankPadded, if_neg (char_ne_pad h), rank_char h]

theorem mod_lt_64 (m : ℕ) : m % 64 < 64 := Nat.mod_lt _ (by decide)

/-- Only the low eight bits count. -/
theorem byte_of_eq {k : ℕ} {b : UInt8} (h : n = k * 256 + b.toNat) : byte n = b := by
  apply UInt8.toNat_inj.mp
  have hb := b.toNat_lt
  simp only [byte, UInt8.toNat_ofNat']
  omega

end Alphabet

section RoundTrips

theorem ranked_cons_char {n : ℕ} (h : n < 64) (text : List Char) :
    ranked (char n :: text) = (char n, n) :: ranked text := by
  rw [ranked, List.filterMap_cons, rankPadded_char h]
  rfl

theorem ranked_pad (text : List Char) : ranked ('=' :: text) = ('=', 0) :: ranked text := rfl

theorem decode_encode (bs : List UInt8) : decode (encode bs) = bs := by
  induction bs using encode.induct with
  | case1 => rfl
  | case2 b₀ =>
    have h₀ := b₀.toNat_lt
    simp only [encode, decode, ranked_cons_char (mod_lt_64 _), ranked_pad]
    simp only [decodeGroups, ranked, List.filterMap_nil, if_true, List.append_nil]
    rw [byte_of_eq (k := 0) (b := b₀) (by omega)]
  | case3 b₀ b₁ =>
    have h₀ := b₀.toNat_lt
    have h₁ := b₁.toNat_lt
    simp only [encode, decode, ranked_cons_char (mod_lt_64 _), ranked_pad]
    simp only [decodeGroups, ranked, List.filterMap_nil, if_true, List.append_nil,
      if_neg (char_ne_pad (mod_lt_64 _))]
    rw [byte_of_eq (k := 0) (b := b₀) (by omega), byte_of_eq (k := b₀.toNat) (b := b₁) (by omega)]
  | case4 b₀ b₁ b₂ rest ih =>
    have h₀ := b₀.toNat_lt
    have h₁ := b₁.toNat_lt
    have h₂ := b₂.toNat_lt
    rw [decode] at ih
    simp only [encode, decode, ranked_cons_char (mod_lt_64 _)]
    simp only [decodeGroups, if_neg (char_ne_pad (mod_lt_64 _)), ih]
    rw [byte_of_eq (k := 0) (b := b₀) (by omega), byte_of_eq (k := b₀.toNat) (b := b₁) (by omega),
      byte_of_eq (k := b₀.toNat * 256 + b₁.toNat) (b := b₂) (by omega)]
    rfl

theorem decodeStrictGroups_encode (bs : List UInt8) :
    decodeStrictGroups (encode bs) = some bs := by
  induction bs using encode.induct with
  | case1 => rfl
  | case2 b₀ =>
    have h₀ := b₀.toNat_lt
    simp only [encode, decodeStrictGroups, rank_char (mod_lt_64 _), Option.bind_eq_bind,
      Option.bind_some]
    rw [byte_of_eq (k := 0) (b := b₀) (by omega)]
  | case3 b₀ b₁ =>
    have h₀ := b₀.toNat_lt
    have h₁ := b₁.toNat_lt
    rw [encode, decodeStrictGroups]
    · simp only [rank_char (mod_lt_64 _), Option.bind_eq_bind, Option.bind_some]
      rw [byte_of_eq (k := 0) (b := b₀) (by omega),
        byte_of_eq (k := b₀.toNat) (b := b₁) (by omega)]
    · exact char_ne_pad (mod_lt_64 _)
  | case4 b₀ b₁ b₂ rest ih =>
    have h₀ := b₀.toNat_lt
    have h₁ := b₁.toNat_lt
    have h₂ := b₂.toNat_lt
    rw [encode, decodeStrictGroups]
    · simp only [rank_char (mod_lt_64 _), Option.bind_eq_bind, Option.bind_some, ih]
      rw [byte_of_eq (k := 0) (b := b₀) (by omega), byte_of_eq (k := b₀.toNat) (b := b₁) (by omega),
        byte_of_eq (k := b₀.toNat * 256 + b₁.toNat) (b := b₂) (by omega)]
    · exact fun _ h => absurd h (char_ne_pad (mod_lt_64 _))
    · exact fun h => absurd h (char_ne_pad (mod_lt_64 _))

theorem mem_encode {bs : List UInt8} {c : Char} (h : c ∈ encode bs) : c ∈ '=' :: alphabet := by
  have hall : ∀ n < 64, char n ∈ '=' :: alphabet := by decide +kernel
  have hchar : ∀ m, char (m % 64) ∈ '=' :: alphabet := fun m => hall _ (mod_lt_64 m)
  have hpad : '=' ∈ '=' :: alphabet := List.mem_cons_self
  induction bs using encode.induct with
  | case1 => cases h
  | case2 b₀ =>
    simp only [encode, List.mem_cons, List.not_mem_nil, or_false] at h
    rcases h with rfl | rfl | rfl | rfl <;> first | exact hchar _ | exact hpad
  | case3 b₀ b₁ =>
    simp only [encode, List.mem_cons, List.not_mem_nil, or_false] at h
    rcases h with rfl | rfl | rfl | rfl <;> first | exact hchar _ | exact hpad
  | case4 b₀ b₁ b₂ rest ih =>
    simp only [encode, List.mem_cons] at h
    rcases h with rfl | rfl | rfl | rfl | h
    · exact hchar _
    · exact hchar _
    · exact hchar _
    · exact hchar _
    · exact ih h

theorem decodeStrict_broken {text : List Char} {bs : List UInt8}
    (h : text.filter (fun c => c ≠ '\n' ∧ c ≠ '\r') = encode bs) : decodeStrict text = some bs := by
  rw [decodeStrict, h]
  exact decodeStrictGroups_encode bs

theorem decodeStrict_encode (bs : List UInt8) : decodeStrict (encode bs) = some bs := by
  refine decodeStrict_broken (List.filter_eq_self.mpr fun c hc => ?_)
  have hplain : ('=' :: alphabet).all fun c => c ≠ '\n' ∧ c ≠ '\r' := by decide +kernel
  exact List.all_eq_true.mp hplain c (mem_encode hc)

end RoundTrips

example : String.ofList (encode [77, 97, 110, 33]) = "TWFuIQ==" := by decide +kernel
example : decode "TW Fu\nIQ==".toList = [77, 97, 110, 33] := by decide +kernel

end ProtonDrive.Base64Texts
