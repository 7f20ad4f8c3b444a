import ProtonDrive.RunLengthCodes
import ProtonDrive.Base64Texts
import Mathlib.Data.Rat.Floor

/-!
# The trajectory of the captcha puzzle

The captcha window of `proton-drive-setup` records where the pointer is during a drag, and when.
`_encode_client_data` writes the four arrays one after the other as run-length codes, packs the
numbers into 16 bits each and compresses the result. Packing a number that does not fit raises.
Floats are the rationals they denote, and arithmetic on them is exact.
-/

namespace ProtonDrive.CaptchaTrajectories
open RunLengthCodes

section Coder

/-- The local variables of `_compress_array` in its loop. -/
structure CompressState where
  result : List ℤ
  rep : ℕ
  last : ℤ
  lits : List ℤ

/-- Literals as they are appended to the result. -/
def literalCodes (lits : List ℤ) : List ℤ := -(lits.length : ℤ) :: lits

def CompressState.step (s : CompressState) (v : ℤ) : CompressState :=
  if v = s.last then
    let s := if 1 < s.lits.length then
        { s with result := s.result ++ literalCodes s.lits.dropLast, lits := [] }
      else s
    { s with rep := s.rep + 1 }
  else
    let s := if 1 < s.rep then
        { s with result := s.result ++ [(s.rep : ℤ), s.last], rep := 1, lits := [v] }
      else { s with lits := s.lits ++ [v] }
    { s with last := v }

/-- The result after the loop. -/
def CompressState.flush (s : CompressState) : List ℤ :=
  (if 1 < s.lits.length then s.result ++ literalCodes s.lits
    else if 1 ≤ s.rep then s.result ++ [(s.rep : ℤ), s.last]
    else s.result) ++ [0]

/-- `_compress_array`. -/
def compressArray : List ℤ → List ℤ
  | [] => [0]
  | first :: rest => (rest.foldl CompressState.step ⟨[], 1, first, [first]⟩).flush

/-- What the loop has read is what it has written, as a grouping, together with what is pending:
a stretch of literals, or copies of the last entry. -/
inductive Holds : CompressState → List ℤ → Prop
  | literals {segs : List Segment} {front : List ℤ} {last : ℤ}
      (grouping : Grouping (segs ++ [.literals (front ++ [last])])) :
      Holds ⟨segs.flatMap Segment.codes, 1, last, front ++ [last]⟩
        (segs.flatMap Segment.entries ++ (front ++ [last]))
  | copies {segs : List Segment} {n : ℕ} {last : ℤ} {lits : List ℤ} (hn : 1 < n)
      (hlits : lits.length ≤ 1) (grouping : Grouping (segs ++ [.copies n last])) :
      Holds ⟨segs.flatMap Segment.codes, n, last, lits⟩
        (segs.flatMap Segment.entries ++ List.replicate n last)

/-- A repetition: pending literals are written, up to the repeated one. -/
theorem step_repeat {s : CompressState} (hlits : s.lits.length ≤ 1) :
    s.step s.last = { s with rep := s.rep + 1 } := by
  rw [CompressState.step, if_pos rfl, if_neg (by omega)]

theorem step_repeat_literals {s : CompressState} (hlits : 1 < s.lits.length) :
    s.step s.last = { s with
      result := s.result ++ literalCodes s.lits.dropLast, lits := [], rep := s.rep + 1 } := by
  rw [CompressState.step, if_pos rfl, if_pos hlits]

theorem step_other {s : CompressState} {v : ℤ} (hv : v ≠ s.last) (hrep : s.rep = 1) :
    s.step v = { s with lits := s.lits ++ [v], last := v } := by
  rw [CompressState.step, if_neg hv, if_neg (by omega)]

theorem step_other_copies {s : CompressState} {v : ℤ} (hv : v ≠ s.last) (hrep : 1 < s.rep) :
    s.step v = { s with
      result := s.result ++ [(s.rep : ℤ), s.last], rep := 1, lits := [v], last := v } := by
  rw [CompressState.step, if_neg hv, if_pos hrep]

theorem Holds.step {s : CompressState} {a : List ℤ} (h : Holds s a) (v : ℤ) :
    Holds (s.step v) (a ++ [v]) := by
  cases h with
  | @literals segs front last g =>
    have hchain : (front ++ [last]).IsChain (· ≠ ·) := by
      simpa using g.right.differ
    by_cases hv : v = last
    · subst hv
      cases front with
      | nil =>
        rw [step_repeat (by simp)]
        have g' := g.replace (.copies two_pos v) rfl (by simp)
        simpa [List.replicate] using Holds.copies one_lt_two (by simp) g'
      | cons w front =>
        rw [step_repeat_literals (by simp)]
        simp only [List.dropLast_concat]
        have hts : Grouping [.literals (w :: front), .copies 2 v] := by
          refine ⟨?_, ?_, ?_⟩
          · simp [Segment.Nonempty]
          · simpa using hchain
          · simp
        have g' := g.replace hts (by simp) (by simp)
        rw [List.append_cons] at g'
        simpa [literalCodes] using
          @Holds.copies _ 2 v [] one_lt_two (by simp) g'
    · rw [step_other hv rfl]
      have hsnoc : (front ++ [last] ++ [v]).IsChain (· ≠ ·) :=
        List.isChain_append.mpr ⟨hchain, List.isChain_singleton v, by simpa using Ne.symm hv⟩
      have g' := g.replace (.literals (by simp) hsnoc) (by simp)
        (by simp)
      simpa using Holds.literals g'
  | @copies segs n last lits hn hlits g =>
    by_cases hv : v = last
    · subst hv
      rw [step_repeat hlits]
      have g' := g.replace (.copies (Nat.succ_pos n) v) rfl (by simp; omega)
      simpa [List.replicate_succ'] using Holds.copies (by omega) hlits g'
    · rw [step_other_copies hv hn]
      have hts : Grouping [.copies n last, .literals [v]] := by
        refine ⟨?_, ?_, ?_⟩
        · simp [Segment.Nonempty]; omega
        · simpa using Ne.symm hv
        · simp; omega
      have g' := g.replace hts rfl (by simp)
      rw [List.append_cons] at g'
      simpa using @Holds.literals _ [] v g'

theorem Holds.run {s : CompressState} {a : List ℤ} (h : Holds s a) (rest : List ℤ) :
    Holds (rest.foldl CompressState.step s) (a ++ rest) := by
  induction rest generalizing s a with
  | nil => simpa using h
  | cons v rest ih => simpa using ih (h.step v)

/-- A segment for each of the array's groups, as the coder writes them. -/
def Written (codes a : List ℤ) : Prop :=
  ∃ segs, Grouping segs ∧ segs.flatMap Segment.entries = a ∧
    codes = segs.flatMap Segment.codes ++ [0]

theorem Holds.flush {s : CompressState} {a : List ℤ} (h : Holds s a) : Written s.flush a := by
  cases h with
  | @literals segs front last g =>
    cases front with
    | nil =>
      have g' := g.replace (.copies one_pos last) rfl (by simp)
      refine ⟨_, g', by simp, ?_⟩
      simp [CompressState.flush]
    | cons w front =>
      refine ⟨_, g, by simp, ?_⟩
      simp [CompressState.flush, literalCodes]
  | @copies segs n last lits hn hlits g =>
    refine ⟨_, g, by simp, ?_⟩
    simp [CompressState.flush, hlits.not_gt, hn.le]

theorem compressArray_written (a : List ℤ) : Written (compressArray a) a := by
  cases a with
  | nil => exact ⟨[], ⟨List.forall_mem_nil _, .nil, .nil⟩, rfl, rfl⟩
  | cons first rest =>
    have hfirst : Holds ⟨[], 1, first, [first]⟩ [first] :=
      @Holds.literals [] [] first (.literals (by simp) (List.isChain_singleton first))
    exact (hfirst.run rest).flush

theorem readList_compressArray (a rest : List ℤ) :
    readList (compressArray a ++ rest) = some (a, rest) := by
  obtain ⟨segs, g, rfl, hcodes⟩ := compressArray_written a
  rw [hcodes, List.append_assoc]
  exact readList_segments g.nonempty rest

/-- The coder is lossless: an array is read back whole from its codes, up to their end, and four
arrays written one after the other are told apart. -/
theorem compressArray_lossless :
    (∀ a rest : List ℤ, readList (compressArray a) = some (a, []) ∧
        readList (compressArray a ++ rest) = some (a, rest)) ∧
      ∀ a b c d a' b' c' d' : List ℤ,
        compressArray a ++ compressArray b ++ compressArray c ++ compressArray d =
            compressArray a' ++ compressArray b' ++ compressArray c' ++ compressArray d' ↔
          a = a' ∧ b = b' ∧ c = c' ∧ d = d' := by
  constructor
  · intro a rest
    exact ⟨by simpa using readList_compressArray a [], readList_compressArray a rest⟩
  · intro a b c d a' b' c' d'
    have inj : ∀ {a b r r' : List ℤ},
        compressArray a ++ r = compressArray b ++ r' ↔ a = b ∧ r = r' :=
      append_inj_of_read readList_compressArray
    have hlast : compressArray d = compressArray d' ↔ d = d' := by
      simpa using @inj d d' [] []
    simp only [List.append_assoc, inj, hlast]

end Coder

section Encoding

/-- `int` of a float. -/
def truncate (q : ℚ) : ℤ := q.num.tdiv q.den

def maxInt16 : ℕ := 32767

def IsInt16 (v : ℤ) : Prop := -(maxInt16 + 1 : ℤ) ≤ v ∧ v ≤ maxInt16

instance (v : ℤ) : Decidable (IsInt16 v) := inferInstanceAs (Decidable (_ ∧ _))

/-- One number in the format `h` of `struct`, little-endian; `none` is a `struct.error`. -/
def packInt16 (v : ℤ) : Option (List UInt8) :=
  if IsInt16 v then some [UInt8.ofNat (v % 256).toNat, UInt8.ofNat (v / 256 % 256).toNat] else none

/-- `struct.pack`. -/
def pack (vs : List ℤ) : Option (List UInt8) := (vs.mapM packInt16).map List.flatten

/-- The header bytes of the compressed data are masked. -/
def maskHeader : List UInt8 → List UInt8
  | b₀ :: b₁ :: rest => (b₀ ^^^ 150) :: (b₁ ^^^ 181) :: rest
  | short => short

/-- `_encode_client_data`; `zlibCompress` is `zlib.compress`, and the encoding that of
`base64.b64encode`. -/
def encodeClientData (zlibCompress : List UInt8 → List UInt8) (xs ys buttons : List ℤ)
    (timestamps : List ℚ) : Option (List Char) :=
  let tsInt := timestamps.map truncate
  let combined := compressArray xs ++ compressArray ys ++ compressArray buttons ++
    compressArray tsInt
  (pack combined).map fun raw => Base64Texts.encode (maskHeader (zlibCompress raw))

/-- No entry is repeated more than 32767 times in a row, and no more than 32768 entries in a row
differ from the entries beside them. -/
def ShortRuns (a : List ℤ) : Prop :=
  (∀ v, ¬ List.replicate (maxInt16 + 1) v <:+: a) ∧
    ¬ List.replicate (maxInt16 + 2) true <:+: alone none a

theorem ShortRuns.of_length_le {a : List ℤ} (h : a.length ≤ maxInt16) : ShortRuns a := by
  constructor
  · intro v hv
    have hlen := hv.length_le
    rw [List.length_replicate] at hlen
    omega
  · intro hv
    have hlen := hv.length_le
    rw [List.length_replicate, length_alone] at hlen
    omega

def Packable (a : List ℤ) : Prop := (∀ v ∈ a, IsInt16 v) ∧ ShortRuns a

theorem pack_isSome_iff (vs : List ℤ) : (pack vs).isSome ↔ ∀ v ∈ vs, IsInt16 v := by
  rw [pack, Option.isSome_map]
  induction vs with
  | nil => simp
  | cons v vs ih =>
    rw [List.forall_mem_cons, ← ih, List.mapM_cons, packInt16]
    split_ifs with hv
    · cases vs.mapM packInt16 <;> simp [hv]
    · simp [hv]

theorem isInt16_compressArray_iff (a : List ℤ) :
    (∀ c ∈ compressArray a, IsInt16 c) ↔ Packable a := by
  obtain ⟨segs, g, rfl, hcodes⟩ := compressArray_written a
  have hzero : IsInt16 0 := by decide
  rw [hcodes, List.forall_mem_append, List.forall_mem_singleton]
  exact (and_iff_left hzero).trans (g.codes_bounded_iff (by decide))

/-- Encoding a trajectory raises unless all of its arrays can be packed. -/
theorem encodeClientData_isSome_iff (zlibCompress : List UInt8 → List UInt8)
    (xs ys buttons : List ℤ) (timestamps : List ℚ) :
    (encodeClientData zlibCompress xs ys buttons timestamps).isSome ↔
      Packable xs ∧ Packable ys ∧ Packable buttons ∧ Packable (timestamps.map truncate) := by
  simp only [encodeClientData, Option.isSome_map, pack_isSome_iff, List.forall_mem_append,
    isInt16_compressArray_iff, and_assoc]

end Encoding

section Window

theorem truncate_of_nonneg {q : ℚ} (hq : 0 ≤ q) : truncate q = ⌊q⌋ := by
  rw [truncate, Int.tdiv_eq_ediv_of_nonneg (Rat.num_nonneg.mpr hq), Rat.floor_def']

/-- `round(q, 4)`: to four decimals, half to even. -/
def round4 (q : ℚ) : ℚ :=
  let scaled := q * 10000
  let low := ⌊scaled⌋
  let rest := scaled - low
  (if rest < 1 / 2 ∨ rest = 1 / 2 ∧ low % 2 = 0 then low else low + 1 : ℤ) / 10000

theorem round4_nonneg {q : ℚ} (hq : 0 ≤ q) : 0 ≤ round4 q := by
  have hlow : 0 ≤ ⌊q * 10000⌋ := Int.floor_nonneg.mpr (by positivity)
  simp only [round4]
  refine div_nonneg (Int.cast_nonneg ?_) (by norm_num)
  split_ifs <;> omega

/-- The trajectory of a `CaptchaWindow`. Clock readings are in milliseconds. -/
structure CaptchaWindow where
  t0 : Option ℚ
  trajX : List ℤ
  trajY : List ℤ
  trajBtn : List ℤ
  trajTs : List ℚ

namespace CaptchaWindow

def startTrajectory (x y now : ℚ) : CaptchaWindow where
  t0 := some now
  trajX := [truncate x]
  trajY := [truncate y]
  trajBtn := [1]
  trajTs := [0]

def record (w : CaptchaWindow) (x y : ℚ) (btn : ℤ) (now : ℚ) : CaptchaWindow :=
  match w.t0 with
  | none => w
  | some t0 => { w with
      trajX := w.trajX ++ [truncate x]
      trajY := w.trajY ++ [truncate y]
      trajBtn := w.trajBtn ++ [btn]
      trajTs := w.trajTs ++ [round4 (now - t0)] }

/-- What `captcha_validate` makes of the trajectory of the window. -/
def clientData (zlibCompress : List UInt8 → List UInt8) (w : CaptchaWindow) :
    Option (List Char) :=
  encodeClientData zlibCompress w.trajX w.trajY w.trajBtn w.trajTs

/-- The windows a drag inside a widget leads to, with the latest reading of the clock. -/
inductive Dragged (width height : ℚ) : CaptchaWindow → ℚ → Prop
  | start {x y now : ℚ} (hx : 0 ≤ x ∧ x < width) (hy : 0 ≤ y ∧ y < height) :
      Dragged width height (startTrajectory x y now) now
  | record {w : CaptchaWindow} {now x y now' : ℚ} {btn : ℤ} (h : Dragged width height w now)
      (hx : 0 ≤ x ∧ x < width) (hy : 0 ≤ y ∧ y < height) (hbtn : btn = 0 ∨ btn = 1)
      (hclock : now ≤ now') : Dragged width height (w.record x y btn now') now'

/-- What a drag inside a widget guarantees about the recorded arrays. -/
structure Recorded (w : CaptchaWindow) (now : ℚ) : Prop where
  begun : ∃ t0 ≤ now, w.t0 = some t0
  x_nonneg : ∀ v ∈ w.trajX, 0 ≤ v
  y_nonneg : ∀ v ∈ w.trajY, 0 ≤ v
  buttons : ∀ v ∈ w.trajBtn, v = 0 ∨ v = 1
  ts_nonneg : ∀ t ∈ w.trajTs, 0 ≤ t

theorem Dragged.recorded {width height now : ℚ} {w : CaptchaWindow}
    (h : Dragged width height w now) : Recorded w now := by
  have floor_nonneg : ∀ {q : ℚ}, 0 ≤ q → 0 ≤ truncate q := by
    intro q hq
    rw [truncate_of_nonneg hq]
    exact Int.floor_nonneg.mpr hq
  induction h with
  | @start x y now hx hy =>
    refine ⟨⟨now, le_rfl, rfl⟩, ?_, ?_, ?_, ?_⟩
    · exact List.forall_mem_singleton.mpr (floor_nonneg hx.1)
    · exact List.forall_mem_singleton.mpr (floor_nonneg hy.1)
    · exact List.forall_mem_singleton.mpr (.inr rfl)
    · exact List.forall_mem_singleton.mpr le_rfl
  | record h hx hy hbtn hclock ih =>
    obtain ⟨t0, hle, ht0⟩ := ih.begun
    have hstamp := round4_nonneg (sub_nonneg.mpr (hle.trans hclock))
    simp only [CaptchaWindow.record, ht0]
    refine ⟨⟨t0, hle.trans hclock, rfl⟩, ?_, ?_, ?_, ?_⟩
    · exact List.forall_mem_append.mpr
        ⟨ih.x_nonneg, List.forall_mem_singleton.mpr (floor_nonneg hx.1)⟩
    · exact List.forall_mem_append.mpr
        ⟨ih.y_nonneg, List.forall_mem_singleton.mpr (floor_nonneg hy.1)⟩
    · exact List.forall_mem_append.mpr ⟨ih.buttons, List.forall_mem_singleton.mpr hbtn⟩
    · exact List.forall_mem_append.mpr ⟨ih.ts_nonneg, List.forall_mem_singleton.mpr hstamp⟩

theorem isInt16_of_nonneg_iff {v : ℤ} (hv : 0 ≤ v) : IsInt16 v ↔ v ≤ 32767 := by
  simp only [IsInt16, maxInt16]
  omega

theorem isInt16_truncate_iff {t : ℚ} (ht : 0 ≤ t) : IsInt16 (truncate t) ↔ t < 32768 := by
  rw [truncate_of_nonneg ht, isInt16_of_nonneg_iff (Int.floor_nonneg.mpr ht),
    Int.le_iff_lt_add_one, Int.floor_lt]
  norm_num

/-- A drag can be sent exactly when the pointer stayed below 32768, the drag took less than
32.768 seconds, and no array has too long a run or stretch. -/
theorem Dragged.clientData_isSome_iff {width height now : ℚ} {w : CaptchaWindow}
    (h : Dragged width height w now) (zlibCompress : List UInt8 → List UInt8) :
    (w.clientData zlibCompress).isSome ↔
      (∀ v ∈ w.trajX ++ w.trajY, v ≤ 32767) ∧ (∀ t ∈ w.trajTs, t < 32768) ∧
        ∀ a ∈ [w.trajX, w.trajY, w.trajBtn, w.trajTs.map truncate], ShortRuns a := by
  have hrec := h.recorded
  have hx : (∀ v ∈ w.trajX, IsInt16 v) ↔ ∀ v ∈ w.trajX, v ≤ 32767 :=
    forall₂_congr fun v hv => isInt16_of_nonneg_iff (hrec.x_nonneg v hv)
  have hy : (∀ v ∈ w.trajY, IsInt16 v) ↔ ∀ v ∈ w.trajY, v ≤ 32767 :=
    forall₂_congr fun v hv => isInt16_of_nonneg_iff (hrec.y_nonneg v hv)
  have hbtn : ∀ v ∈ w.trajBtn, IsInt16 v := by
    intro v hv
    rcases hrec.buttons v hv with rfl | rfl <;> decide
  have hts : (∀ v ∈ w.trajTs.map truncate, IsInt16 v) ↔ ∀ t ∈ w.trajTs, t < 32768 := by
    rw [List.forall_mem_map]
    exact forall₂_congr fun t ht => isInt16_truncate_iff (hrec.ts_nonneg t ht)
  rw [clientData, encodeClientData_isSome_iff]
  simp only [Packable, hx, hy, hts, iff_true_intro hbtn, true_and, List.forall_mem_append,
    List.forall_mem_cons, List.not_mem_nil, false_implies, implies_true, and_true]
  tauto

/-- A drag of two motion events, the second at the release of the button. -/
def shortDrag : CaptchaWindow := ((startTrajectory 5 7 0).record 6 8 1 12).record 6 9 0 30

theorem clientData_shortDrag : (shortDrag.clientData id).isSome = true := by
  have inside : ∀ {q : ℚ}, 0 ≤ q → q < 10 → 0 ≤ q ∧ q < 300 := fun h₀ h => ⟨h₀, by linarith⟩
  have hstart : Dragged 300 300 (startTrajectory 5 7 0) 0 :=
    .start (inside (by norm_num) (by norm_num)) (inside (by norm_num) (by norm_num))
  have hmotion : Dragged 300 300 ((startTrajectory 5 7 0).record 6 8 1 12) 12 :=
    .record hstart (inside (by norm_num) (by norm_num)) (inside (by norm_num) (by norm_num))
      (.inr rfl) (by norm_num)
  have hdrag : Dragged 300 300 shortDrag 30 :=
    .record hmotion (inside (by norm_num) (by norm_num)) (inside (by norm_num) (by norm_num))
      (.inl rfl) (by norm_num)
  refine (hdrag.clientData_isSome_iff id).mpr ⟨?_, ?_, ?_⟩
  · decide +kernel
  · decide +kernel
  · have hlength : ∀ a ∈ [shortDrag.trajX, shortDrag.trajY, shortDrag.trajBtn,
        shortDrag.trajTs.map truncate], a.length = 3 := by
      simp [shortDrag, startTrajectory, CaptchaWindow.record]
    exact fun a ha => .of_length_le ((hlength a ha).le.trans (by decide))

/-- A drag of 33 seconds. -/
theorem clientData_fails : ¬ ∀ (zlibCompress : List UInt8 → List UInt8) (width height now : ℚ)
    (w : CaptchaWindow), w.Dragged width height now →
    (w.clientData zlibCompress).isSome = true := by
  intro h
  have hinside : (0 : ℚ) ≤ 0 ∧ (0 : ℚ) < 300 := by norm_num
  have hdrag : Dragged 300 300 ((startTrajectory 0 0 0).record 0 0 1 33000) 33000 :=
    .record (.start hinside hinside) hinside hinside (.inr rfl) (by norm_num)
  have hsome := h id 300 300 33000 _ hdrag
  obtain ⟨-, -, -, hts, -⟩ := (encodeClientData_isSome_iff _ _ _ _ _).mp hsome
  have hstamp : truncate (round4 (33000 - 0)) = 33000 := by decide +kernel
  have hlast : 33000 ∈ [truncate 0, truncate (round4 (33000 - 0))] :=
    List.mem_cons_of_mem _ (List.mem_singleton.mpr hstamp.symm)
  exact absurd (hts 33000 hlast) (by decide)

end CaptchaWindow

end Window

end ProtonDrive.CaptchaTrajectories
