import Mathlib.Data.List.Basic
import Mathlib.Tactic.SplitIfs

/-!
# Files that are written in place

A writer truncates a file and writes its data from the front, in chunks of any length and at
an offset of its own; other writers may hold the same file meanwhile. A file is settled once
the writer that truncated it last has written all its data, if no other data was mixed in.
A settled file holds exactly that data.
-/

namespace ProtonDrive.InPlaceFiles

variable {α ω : Type}

/-- Write a chunk at an offset; a gap before it reads as `zero`. -/
def writeAt (zero : α) (content : List α) (offset : ℕ) (chunk : List α) : List α :=
  content.take offset ++ List.replicate (offset - content.length) zero ++ chunk ++
    content.drop (offset + chunk.length)

/-- The first `n` items are those of the data, and nothing lies behind its end. -/
structure Filled (data content : List α) (n : ℕ) : Prop where
  inside : content.length ≤ data.length
  covered : n ≤ data.length
  front : ∀ j < n, content[j]? = data[j]?

/-- A file, with the writer that truncated it last, the data of that writer, how far it has
written, and whether other data was written since. -/
structure File (α ω : Type) where
  content : List α
  maker : Option (ω × List α)
  written : ℕ
  mixed : Bool

namespace File

/-- Created by a writer, or truncated. -/
def made (w : ω) (data : List α) : File α ω := ⟨[], some (w, data), 0, false⟩

variable [DecidableEq α] [DecidableEq ω]

/-- A writer with this data writes `n` items at its offset. -/
def write (zero : α) (f : File α ω) (w : ω) (data : List α) (offset n : ℕ) : File α ω where
  content := writeAt zero f.content offset ((data.drop offset).take n)
  maker := f.maker
  written := if f.maker.map Prod.fst = some w then offset + n else f.written
  mixed := f.mixed || decide (f.maker.map Prod.snd ≠ some data)

/-- Unless other data was mixed in, the file is filled as far as its maker has written. -/
def Sound (f : File α ω) : Prop :=
  ∀ w data, f.maker = some (w, data) → f.mixed = false → Filled data f.content f.written

/-- The maker has written everything and nothing else was written since. -/
def Settled (f : File α ω) : Prop :=
  f.mixed = false ∧ ∃ w data, f.maker = some (w, data) ∧ f.written = data.length

end File

section Contents

variable {data content : List α} {n offset : ℕ} {zero : α}

theorem filled_nil (data : List α) : Filled data [] 0 :=
  ⟨Nat.zero_le _, Nat.zero_le _, fun _ hj => absurd hj (Nat.not_lt_zero _)⟩

theorem Filled.eq_data (h : Filled data content data.length) : content = data := by
  apply List.ext_getElem?
  intro j
  by_cases hj : j < data.length
  · exact h.front j hj
  · have hd : data.length ≤ j := Nat.le_of_not_lt hj
    rw [List.getElem?_eq_none hd, List.getElem?_eq_none (Nat.le_trans h.inside hd)]

/-- Nothing is missing in front of what is filled. -/
theorem Filled.le_length (h : Filled data content n) : n ≤ content.length := by
  by_contra hlt
  have hlen : content.length < n := Nat.lt_of_not_le hlt
  have hj := h.front content.length hlen
  have hd : content.length < data.length := Nat.lt_of_lt_of_le hlen h.covered
  rw [List.getElem?_eq_none (Nat.le_refl _), List.getElem?_eq_getElem hd] at hj
  cases hj

theorem length_writeAt (zero : α) (content : List α) (offset : ℕ) (chunk : List α) :
    (writeAt zero content offset chunk).length = max content.length (offset + chunk.length) := by
  simp only [writeAt, List.length_append, List.length_take, List.length_replicate,
    List.length_drop]
  omega

theorem getElem?_writeAt_chunk {chunk : List α} {j : ℕ} (h : offset ≤ j)
    (h' : j < offset + chunk.length) :
    (writeAt zero content offset chunk)[j]? = chunk[j - offset]? := by
  have hfront : (content.take offset ++ List.replicate (offset - content.length) zero).length
      = offset := by
    simp only [List.length_append, List.length_take, List.length_replicate]
    omega
  rw [writeAt, List.getElem?_append_left (by rw [List.length_append, hfront]; exact h'),
    List.getElem?_append_right (by rw [hfront]; exact h), hfront]

theorem getElem?_writeAt_front {chunk : List α} {j : ℕ} (h : j < content.length)
    (h' : j < offset) : (writeAt zero content offset chunk)[j]? = content[j]? := by
  have htake : j < (content.take offset).length := by
    rw [List.length_take]
    omega
  rw [writeAt, List.append_assoc, List.append_assoc, List.getElem?_append_left htake,
    List.getElem?_take_of_lt h']

theorem getElem?_writeAt_back {chunk : List α} {j : ℕ} (h : j < content.length)
    (h' : offset + chunk.length ≤ j) :
    (writeAt zero content offset chunk)[j]? = content[j]? := by
  have hfront : (content.take offset ++ List.replicate (offset - content.length) zero ++
      chunk).length = offset + chunk.length := by
    simp only [List.length_append, List.length_take, List.length_replicate]
    omega
  rw [writeAt, List.getElem?_append_right (by rw [hfront]; exact h'), hfront, List.getElem?_drop,
    Nat.add_sub_cancel' h']

theorem getElem?_chunk {j : ℕ} (h : offset ≤ j) (h' : j < offset + n) :
    ((data.drop offset).take n)[j - offset]? = data[j]? := by
  rw [List.getElem?_take_of_lt (by omega), List.getElem?_drop, Nat.add_sub_cancel' h]

/-- Writing a part of the data leaves what is filled as it is. -/
theorem Filled.write {m : ℕ} (h : Filled data content m) (hn : offset + n ≤ data.length) :
    Filled data (writeAt zero content offset ((data.drop offset).take n)) m := by
  have hlen : ((data.drop offset).take n).length = n := by
    rw [List.length_take, List.length_drop]
    omega
  refine ⟨?_, h.covered, ?_⟩
  · rw [length_writeAt, hlen]
    exact Nat.max_le.mpr ⟨h.inside, hn⟩
  · intro j hj
    have hjc : j < content.length := Nat.lt_of_lt_of_le hj h.le_length
    by_cases h₁ : j < offset
    · rw [getElem?_writeAt_front hjc h₁, h.front j hj]
    by_cases h₂ : j < offset + n
    · rw [getElem?_writeAt_chunk (Nat.le_of_not_lt h₁) (by rw [hlen]; exact h₂),
        getElem?_chunk (Nat.le_of_not_lt h₁) h₂]
    · rw [getElem?_writeAt_back hjc (by rw [hlen]; exact Nat.le_of_not_lt h₂), h.front j hj]

/-- Writing on where the filled part ends fills the file further. -/
theorem Filled.write_on (h : Filled data content offset) (hn : offset + n ≤ data.length) :
    Filled data (writeAt zero content offset ((data.drop offset).take n)) (offset + n) := by
  have hlen : ((data.drop offset).take n).length = n := by
    rw [List.length_take, List.length_drop]
    omega
  have hw : Filled data (writeAt zero content offset ((data.drop offset).take n)) offset :=
    h.write hn
  refine ⟨hw.inside, hn, ?_⟩
  intro j hj
  by_cases h₁ : j < offset
  · exact hw.front j h₁
  · rw [getElem?_writeAt_chunk (Nat.le_of_not_lt h₁) (by rw [hlen]; exact hj),
      getElem?_chunk (Nat.le_of_not_lt h₁) hj]

end Contents

namespace File

variable {f : File α ω} {w : ω} {data : List α} {offset n : ℕ}

theorem sound_made (w : ω) (data : List α) : (made w data : File α ω).Sound := by
  intro v d hm _
  cases hm
  exact filled_nil data

/-- A settled file holds the data of its maker. -/
theorem Settled.content_eq (h : f.Settled) (hs : f.Sound) :
    ∃ w data, f.maker = some (w, data) ∧ f.content = data := by
  obtain ⟨hmix, w, data, hm, hw⟩ := h
  have hf := hs w data hm hmix
  rw [hw] at hf
  exact ⟨w, data, hm, hf.eq_data⟩

variable [DecidableEq α] [DecidableEq ω]

/-- The maker writes on where it stopped, another writer wherever it is. -/
theorem Sound.write {zero : α} (h : f.Sound) (hn : offset + n ≤ data.length)
    (hown : ∀ d, f.maker = some (w, d) → f.written = offset) :
    (f.write zero w data offset n).Sound := by
  intro v d hm hmix
  have hm' : f.maker = some (v, d) := hm
  simp only [File.write, hm', Bool.or_eq_false_iff, Option.map_some, ne_eq, Option.some.injEq,
    decide_eq_false_iff_not, not_not] at hmix
  obtain ⟨hmix, rfl⟩ := hmix
  have hf := h v d hm' hmix
  simp only [File.write, hm', Option.map_some, Option.some.injEq]
  split_ifs with hv
  · subst hv
    rw [hown d hm'] at hf
    exact hf.write_on hn
  · exact hf.write hn

end File

end ProtonDrive.InPlaceFiles
