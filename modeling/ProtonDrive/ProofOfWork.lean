import ProtonDrive.LeadingBits
import Mathlib.Order.Bounds.Basic
import Mathlib.Data.List.Forall2

/-!
# The proof of work of the captcha

`captcha_solve_pow` of `proton-drive-setup`: for each challenge the numbers are tried in order until
the SHA-256 digest of number and challenge begins with enough zero bits. The code compares the first
hexadecimal digits of the digest, as a number, with a power of two. The hash function is a
parameter, and the loop is given fuel.
-/

namespace ProtonDrive.ProofOfWork
open LeadingBits

/-- `hashlib.sha256(text.encode()).hexdigest()`. -/
structure Sha256 where
  hexdigest : String → List (Fin 16)
  length_eq : ∀ text, (hexdigest text).length = 64

inductive PowError
  | valueError
  | outOfFuel
  deriving DecidableEq, Repr

section Solver

/-- `int(digits, 16)`: a ValueError for the empty text. -/
def parseHex (digits : List (Fin 16)) : Except PowError ℕ :=
  if digits = [] then .error .valueError else .ok (hexValue digits)

variable (H : Sha256) (nZeros : ℕ)

def digest (challenge : String) (a : ℕ) : List (Fin 16) := H.hexdigest (toString a ++ challenge)

/-- One comparison of the loop. -/
def accepts (challenge : String) (a : ℕ) : Except PowError Bool :=
  let g := (nZeros + 3) / 4
  let threshold := 2 ^ (4 * g - nZeros)
  (parseHex ((digest H challenge a).take g)).map fun v => v < threshold

/-- The inner loop from `a` on. -/
def solve (challenge : String) : ℕ → ℕ → Except PowError ℕ
  | 0, _ => .error .outOfFuel
  | fuel + 1, a =>
    match accepts H nZeros challenge a with
    | .error e => .error e
    | .ok true => .ok a
    | .ok false => solve challenge fuel (a + 1)

/-- `captcha_solve_pow`, with fuel for each challenge. -/
def captchaSolvePow (fuel : ℕ) : List String → Except PowError (List ℕ)
  | [] => .ok []
  | challenge :: challenges =>
    match solve H nZeros challenge fuel 0 with
    | .error e => .error e
    | .ok a => (captchaSolvePow fuel challenges).map (a :: ·)

/-- The digest of number and challenge begins with this many zero bits. -/
def Solves (challenge : String) (a : ℕ) : Prop :=
  ∀ b ∈ (hexBits (digest H challenge a)).take nZeros, b = false

instance (challenge : String) (a : ℕ) : Decidable (Solves H nZeros challenge a) :=
  inferInstanceAs (Decidable (∀ b ∈ (hexBits (digest H challenge a)).take nZeros, b = false))

end Solver

section Correctness

variable {H : Sha256} {nZeros : ℕ} {challenge : String}

/-- The digits that are compared hold the bits in question and fewer than four more. -/
theorem accepts_eq (hpos : 1 ≤ nZeros) (hmax : nZeros ≤ 256) (a : ℕ) :
    accepts H nZeros challenge a = .ok (decide (Solves H nZeros challenge a)) := by
  have hlength : (digest H challenge a).length = 64 := H.length_eq _
  have htake : ((digest H challenge a).take ((nZeros + 3) / 4)).length = (nZeros + 3) / 4 := by
    rw [List.length_take, hlength]
    omega
  have hne : (digest H challenge a).take ((nZeros + 3) / 4) ≠ [] := by
    intro h
    rw [h, List.length_nil] at htake
    omega
  have hbits : hexValue ((digest H challenge a).take ((nZeros + 3) / 4)) <
      2 ^ (4 * ((nZeros + 3) / 4) - nZeros) ↔ Solves H nZeros challenge a := by
    have hcompared : (hexBits ((digest H challenge a).take ((nZeros + 3) / 4))).length =
        4 * ((nZeros + 3) / 4) := by rw [length_hexBits, htake]
    rw [hexValue_eq, ← hcompared, value_lt_two_pow_iff, take_hexBits, List.take_take,
      Nat.min_eq_left (by omega)]
    rfl
  simp only [accepts, parseHex, if_neg hne, Except.map, hbits]

/-- The loop stops at the first number from `a` on that solves the challenge. -/
theorem solve_eq_ok_iff (hpos : 1 ≤ nZeros) (hmax : nZeros ≤ 256) {fuel a r : ℕ} :
    solve H nZeros challenge fuel a = .ok r ↔
      a ≤ r ∧ r < a + fuel ∧ Solves H nZeros challenge r ∧
        ∀ b, a ≤ b → b < r → ¬Solves H nZeros challenge b := by
  induction fuel generalizing a with
  | zero =>
    refine iff_of_false (by simp [solve]) ?_
    rintro ⟨hle, hlt, -⟩
    omega
  | succ fuel ih =>
    rw [solve, accepts_eq hpos hmax]
    by_cases ha : Solves H nZeros challenge a
    · simp only [ha, decide_true, Except.ok.injEq]
      constructor
      · rintro rfl
        exact ⟨le_rfl, by omega, ha, fun b hab hba => absurd hab hba.not_ge⟩
      · rintro ⟨hle, -, -, hleast⟩
        by_contra hne
        exact hleast a le_rfl (lt_of_le_of_ne hle hne) ha
    · simp only [ha, decide_false]
      rw [ih]
      constructor
      · rintro ⟨hle, hlt, hr, hleast⟩
        refine ⟨by omega, by omega, hr, fun b hab hbr => ?_⟩
        rcases Nat.eq_or_lt_of_le hab with rfl | hlt'
        · exact ha
        · exact hleast b hlt' hbr
      · rintro ⟨hle, hlt, hr, hleast⟩
        have hne : a ≠ r := by
          rintro rfl
          exact ha hr
        exact ⟨by omega, by omega, hr, fun b hab hbr => hleast b (by omega) hbr⟩

theorem solve_isLeast_iff (hpos : 1 ≤ nZeros) (hmax : nZeros ≤ 256) {fuel r : ℕ} :
    solve H nZeros challenge fuel 0 = .ok r ↔
      r < fuel ∧ IsLeast {a | Solves H nZeros challenge a} r := by
  rw [solve_eq_ok_iff hpos hmax, Nat.zero_add]
  constructor
  · rintro ⟨-, hlt, hr, hleast⟩
    refine ⟨hlt, hr, fun b hb => ?_⟩
    by_contra hbr
    exact hleast b b.zero_le (not_le.mp hbr) hb
  · rintro ⟨hlt, hr, hleast⟩
    exact ⟨r.zero_le, hlt, hr, fun b _ hbr hb => absurd (hleast hb) hbr.not_ge⟩

theorem captchaSolvePow_eq_ok_iff (hpos : 1 ≤ nZeros) (hmax : nZeros ≤ 256) {fuel : ℕ}
    {challenges : List String} {answers : List ℕ} :
    captchaSolvePow H nZeros fuel challenges = .ok answers ↔
      List.Forall₂ (fun c a => a < fuel ∧ IsLeast {a | Solves H nZeros c a} a)
        challenges answers := by
  induction challenges generalizing answers with
  | nil => simp [captchaSolvePow, eq_comm]
  | cons c challenges ih =>
    rw [captchaSolvePow]
    cases hs : solve H nZeros c fuel 0 with
    | error e =>
      refine iff_of_false (by simp) fun h => ?_
      cases h with
      | cons ha _ => cases hs.symm.trans ((solve_isLeast_iff hpos hmax).mpr ha)
    | ok a =>
      constructor
      · intro h
        cases hrest : captchaSolvePow H nZeros fuel challenges with
        | error e =>
          rw [hrest] at h
          cases h
        | ok rest =>
          rw [hrest] at h
          cases h
          exact .cons ((solve_isLeast_iff hpos hmax).mp hs) (ih.mp hrest)
      · intro h
        cases h with
        | cons ha hrest =>
          cases hs.symm.trans ((solve_isLeast_iff hpos hmax).mpr ha)
          rw [ih.mpr hrest]
          rfl

/-- The loops never raise as long as some bit is required. -/
theorem solve_ne_valueError (hpos : 1 ≤ nZeros) (hmax : nZeros ≤ 256) (fuel a : ℕ) :
    solve H nZeros challenge fuel a ≠ .error .valueError := by
  induction fuel generalizing a with
  | zero => simp [solve]
  | succ fuel ih =>
    rw [solve, accepts_eq hpos hmax]
    by_cases ha : Solves H nZeros challenge a
    · simp [ha]
    · simpa [ha] using ih (a + 1)

theorem captchaSolvePow_ne_valueError (hpos : 1 ≤ nZeros) (hmax : nZeros ≤ 256) (fuel : ℕ)
    (challenges : List String) :
    captchaSolvePow H nZeros fuel challenges ≠ .error .valueError := by
  induction challenges with
  | nil => simp [captchaSolvePow]
  | cons c challenges ih =>
    rw [captchaSolvePow]
    cases hs : solve H nZeros c fuel 0 with
    | error e =>
      rintro ⟨⟩
      exact solve_ne_valueError hpos hmax fuel 0 hs
    | ok a =>
      cases hrest : captchaSolvePow H nZeros fuel challenges with
      | error e =>
        rintro ⟨⟩
        exact ih hrest
      | ok rest => simp [Except.map]

theorem exists_fuel {P : String → ℕ → Prop} {challenges : List String} {answers : List ℕ}
    (h : List.Forall₂ P challenges answers) :
    ∃ fuel, List.Forall₂ (fun c a => a < fuel ∧ P c a) challenges answers := by
  induction h with
  | nil => exact ⟨0, .nil⟩
  | @cons c a challenges answers ha _ ih =>
    obtain ⟨fuel, ih⟩ := ih
    refine ⟨max (a + 1) fuel, .cons ⟨by omega, ha⟩ ?_⟩
    exact ih.imp fun _ _ hb => ⟨hb.1.trans_le (le_max_right _ _), hb.2⟩

/-- With no zero bit required the first comparison raises, there being no digit to read. Otherwise
the answer to each challenge is the least number whose digest begins with the required zero bits;
where there is one for every challenge the loops find them, given time. -/
theorem answers_least_iff (H : Sha256) (hmax : nZeros ≤ 256) (challenges : List String)
    (answers : List ℕ) :
    ((∃ fuel, captchaSolvePow H nZeros fuel challenges = .error .valueError) ↔
      nZeros = 0 ∧ challenges ≠ []) ∧
    (1 ≤ nZeros →
      ((∃ fuel, captchaSolvePow H nZeros fuel challenges = .ok answers) ↔
        List.Forall₂ (fun c a => IsLeast {a | Solves H nZeros c a} a) challenges answers)) := by
  constructor
  · constructor
    · rintro ⟨fuel, h⟩
      by_contra hno
      rcases Nat.eq_zero_or_pos nZeros with rfl | hpos
      · obtain rfl : challenges = [] := not_not.mp fun hne => hno ⟨rfl, hne⟩
        simp [captchaSolvePow] at h
      · exact captchaSolvePow_ne_valueError hpos hmax fuel challenges h
    · rintro ⟨rfl, hne⟩
      obtain ⟨c, cs, rfl⟩ := List.exists_cons_of_ne_nil hne
      exact ⟨1, rfl⟩
  · intro hpos
    simp only [captchaSolvePow_eq_ok_iff hpos hmax]
    constructor
    · rintro ⟨fuel, h⟩
      exact h.imp fun _ _ ha => ha.2
    · exact exists_fuel

def hexDigits (text : String) : List (Fin 16) :=
  text.toList.map fun c => Fin.ofNat 16 (if c.isDigit then c.toNat - 48 else c.toNat - 87)

/-- The digests of "0b", "1b" and "0d". -/
def someDigests : Sha256 where
  hexdigest text :=
    if text = "0b" then
      hexDigits "635ca73d00d4f28b5f573b16eea56e9e4579d77e561c32aa68189d9769fa1753"
    else if text = "1b" then
      hexDigits "2caf767aa0a1dc4247210e3c2cfd50b6321a91dd49ff5ee0fe8d2b8b52317d67"
    else if text = "0d" then
      hexDigits "2215f50cb99824ed2786a5d12df72b5dbc304b85f28cd5b873b645cccc3b7411"
    else List.replicate 64 15
  length_eq text := by
    split_ifs <;> rfl

/-- Two zero bits: the digest of "1b" begins with 2c, that of "0b" with 63. -/
theorem answers_least_iff_twoBits :
    captchaSolvePow someDigests 2 5 ["b", "d"] = .ok [1, 0] ∧
      List.Forall₂ (fun c a => IsLeast {a | Solves someDigests 2 c a} a) ["b", "d"] [1, 0] := by
  have hrun : captchaSolvePow someDigests 2 5 ["b", "d"] = .ok [1, 0] := by decide
  exact ⟨hrun, ((answers_least_iff someDigests (by decide) _ _).2 (by decide)).mp ⟨5, hrun⟩⟩

end Correctness

end ProtonDrive.ProofOfWork
