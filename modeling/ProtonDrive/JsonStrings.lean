import Mathlib.Data.List.Basic
import Mathlib.Data.List.TakeWhile
import Mathlib.Tactic.SplitIfs

/-!
# Strings in JSON texts

A writer that takes any bytes for UTF-8, with a replacement character for each byte that is none,
and escapes what it has to; and a reader whose strings are C strings. Exactly the well-formed
texts without NUL are carried over as they are.
-/

namespace ProtonDrive.JsonStrings

/-- The bytes of a text in UTF-8. -/
def utf8 (cs : List Char) : List UInt8 := cs.flatMap String.utf8EncodeChar

/-- The character that the bytes begin with, if they begin with one in UTF-8. -/
def firstChar (bs : List UInt8) : Option Char := bs.toByteArray.utf8DecodeChar? 0

/-- The first characters of the bytes, as many as `n`; `none` for a byte that belongs to none. -/
def runesUpTo : ℕ → List UInt8 → List (Option Char)
  | 0, _ => []
  | _, [] => []
  | n + 1, b :: bs => match firstChar (b :: bs) with
    | some c => some c :: runesUpTo n ((b :: bs).drop c.utf8Size)
    | none => none :: runesUpTo n bs

def runes (bs : List UInt8) : List (Option Char) := runesUpTo bs.length bs

section Writer

def hexDigits : List Char :=
  ['0', '1', '2', '3', '4', '5', '6', '7', '8', '9', 'a', 'b', 'c', 'd', 'e', 'f']

def hexDigit (n : ℕ) : Char := hexDigits.getD n '0'

def hex4 (n : ℕ) : List Char :=
  [hexDigit (n / 4096 % 16), hexDigit (n / 256 % 16), hexDigit (n / 16 % 16), hexDigit (n % 16)]

/-- The characters with an escape of one letter. -/
def shortEscapes : List (Char × Char) :=
  [('\\', '\\'), ('"', '"'), ('\x08', 'b'), ('\x0c', 'f'), ('\n', 'n'), ('\r', 'r'), ('\t', 't')]

/-- Control characters, and what HTML and JavaScript would take amiss, become escapes. -/
def escape (c : Char) : List Char :=
  match shortEscapes.lookup c with
  | some e => ['\\', e]
  | none =>
    if c.toNat < 0x20 ∨ c ∈ ['<', '>', '&', '\u2028', '\u2029'] then '\\' :: 'u' :: hex4 c.toNat
    else [c]

/-- What stands between the quotation marks. -/
def quote (bs : List UInt8) : List Char :=
  (runes bs).flatMap fun r => r.elim ['\\', 'u', 'f', 'f', 'f', 'd'] escape

end Writer

section Reader

def hexValue (digits : List Char) : ℕ :=
  digits.foldl (fun n d => n * 16 + hexDigits.idxOf d.toLower) 0

def unescape (e : Char) : Char := ((shortEscapes.find? fun s => s.2 = e).map Prod.fst).getD e

/-- The characters of a string as it is parsed. The writer makes no surrogates. -/
def unquote : List Char → List Char
  | '\\' :: 'u' :: h₀ :: h₁ :: h₂ :: h₃ :: rest =>
    Char.ofNat (hexValue [h₀, h₁, h₂, h₃]) :: unquote rest
  | '\\' :: e :: rest => unescape e :: unquote rest
  | c :: rest => c :: unquote rest
  | [] => []

/-- A C string ends at the first NUL. -/
def cString (cs : List Char) : String := String.ofList (cs.takeWhile (· ≠ '\x00'))

end Reader

/-- The string that is read where these bytes have been written. -/
def carried (bs : List UInt8) : String := cString (unquote (quote bs))

/-- UTF-8 without NUL. -/
def IsText (bs : List UInt8) : Prop := ∃ cs, utf8 cs = bs ∧ '\x00' ∉ cs

section Decoding

@[simp] theorem utf8_nil : utf8 [] = [] := rfl

@[simp] theorem utf8_cons (c : Char) (cs : List Char) :
    utf8 (c :: cs) = String.utf8EncodeChar c ++ utf8 cs := List.flatMap_cons

theorem firstChar_utf8 (c : Char) (bs : List UInt8) :
    firstChar (String.utf8EncodeChar c ++ bs) = some c := by
  rw [firstChar, List.toByteArray_append]
  exact ByteArray.utf8DecodeChar?_utf8EncodeChar_append

theorem utf8EncodeChar_ne_nil (c : Char) : String.utf8EncodeChar c ≠ [] := by
  intro h
  have hlen := String.length_utf8EncodeChar c
  rw [h] at hlen
  exact c.utf8Size_pos.ne hlen

theorem runesUpTo_utf8 (cs : List Char) {n : ℕ} (hn : (utf8 cs).length ≤ n) :
    runesUpTo n (utf8 cs) = cs.map some := by
  induction cs generalizing n with
  | nil => cases n <;> rfl
  | cons c cs ih =>
    rw [utf8_cons] at hn ⊢
    have hsize := String.length_utf8EncodeChar c
    rw [List.length_append, hsize] at hn
    have hpos := c.utf8Size_pos
    obtain ⟨b, bs, hb⟩ := List.exists_cons_of_ne_nil (utf8EncodeChar_ne_nil c)
    obtain ⟨n, rfl⟩ : ∃ m, n = m + 1 := ⟨n - 1, by omega⟩
    have hfirst := firstChar_utf8 c (utf8 cs)
    have hdrop : (String.utf8EncodeChar c ++ utf8 cs).drop c.utf8Size = utf8 cs := by
      rw [← hsize, List.drop_left]
    rw [hb, List.cons_append] at hfirst hdrop ⊢
    rw [runesUpTo, hfirst]
    dsimp only
    rw [hdrop, ih (by omega), List.map_cons]

/-- Well-formed bytes are taken apart into their characters. -/
theorem runes_utf8 (cs : List Char) : runes (utf8 cs) = cs.map some := runesUpTo_utf8 cs le_rfl

end Decoding

section RoundTrips

theorem hexDigits_spec : ∀ n < 16, hexDigits.idxOf (hexDigit n).toLower = n := by decide

theorem hexValue_hex4 {n : ℕ} (hn : n < 65536) : hexValue (hex4 n) = n := by
  have hmod : ∀ m, m % 16 < 16 := fun m => Nat.mod_lt m (by decide)
  simp only [hexValue, hex4, List.foldl_cons, List.foldl_nil, hexDigits_spec _ (hmod _)]
  omega

theorem unquote_cons {c : Char} (hc : c ≠ '\\') (rest : List Char) :
    unquote (c :: rest) = c :: unquote rest := by
  rw [unquote.eq_def]
  split
  · rename_i h
    cases h
    exact absurd rfl hc
  · rename_i h
    cases h
    exact absurd rfl hc
  · rename_i h
    cases h
    rfl
  · rename_i h
    cases h

/-- An escaped character is read back. -/
theorem unquote_escape (c : Char) (rest : List Char) :
    unquote (escape c ++ rest) = c :: unquote rest := by
  unfold escape
  cases he : shortEscapes.lookup c with
  | some e =>
    obtain ⟨l₁, l₂, hl, -⟩ := List.lookup_eq_some_iff.mp he
    have hmem : (c, e) ∈ shortEscapes := hl ▸ List.mem_append_right l₁ List.mem_cons_self
    simp only [shortEscapes, List.mem_cons, Prod.mk.injEq, List.not_mem_nil, or_false] at hmem
    rcases hmem with ⟨rfl, rfl⟩ | ⟨rfl, rfl⟩ | ⟨rfl, rfl⟩ | ⟨rfl, rfl⟩ | ⟨rfl, rfl⟩ | ⟨rfl, rfl⟩ |
      ⟨rfl, rfl⟩ <;> rfl
  | none =>
    dsimp only
    split_ifs with hu
    · have hsmall : c.toNat < 65536 := by
        rcases hu with hu | hu
        · omega
        · simp only [List.mem_cons, List.not_mem_nil, or_false] at hu
          rcases hu with rfl | rfl | rfl | rfl | rfl <;> decide
      change Char.ofNat (hexValue (hex4 c.toNat)) :: unquote rest = _
      rw [hexValue_hex4 hsmall, Char.ofNat_toNat]
    · refine unquote_cons (fun hc => ?_) rest
      subst hc
      cases he

/-- What is written for the bytes is read as their characters, with replacements. -/
theorem unquote_quote (bs : List UInt8) :
    unquote (quote bs) = (runes bs).map fun r => r.getD '\ufffd' := by
  rw [quote]
  induction runes bs with
  | nil => rfl
  | cons r rs ih =>
    rw [List.flatMap_cons, List.map_cons, ← ih]
    cases r with
    | none => rfl
    | some c => exact unquote_escape c _

theorem unquote_quote_utf8 (cs : List Char) : unquote (quote (utf8 cs)) = cs := by
  rw [unquote_quote, runes_utf8, List.map_map]
  exact List.map_id cs

theorem carried_utf8 {cs : List Char} (h : '\x00' ∉ cs) :
    carried (utf8 cs) = String.ofList cs := by
  have hne : ∀ c ∈ cs, decide (c ≠ '\x00') = true := fun c hc =>
    decide_eq_true fun he => h (he ▸ hc)
  rw [carried, unquote_quote_utf8, cString, List.takeWhile_eq_self_iff.mpr hne]

/-- Exactly the texts are carried over. -/
theorem utf8_carried_iff (bs : List UInt8) : utf8 (carried bs).toList = bs ↔ IsText bs := by
  constructor
  · intro h
    refine ⟨_, h, fun hmem => ?_⟩
    rw [carried, cString, String.toList_ofList] at hmem
    simpa using List.mem_takeWhile_imp hmem
  · rintro ⟨cs, rfl, hcs⟩
    rw [carried_utf8 hcs, String.toList_ofList]

end RoundTrips

example : quote [97, 34, 0xff, 10, 0xe2, 0x82, 0xac] = "a\\\"\\ufffd\\n€".toList := by
  decide +kernel

end ProtonDrive.JsonStrings
