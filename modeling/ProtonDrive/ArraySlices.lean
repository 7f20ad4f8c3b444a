import Mathlib.Data.List.Basic

/-!
# Slices of growing arrays

A slice is a window into an array it may share with other slices. Appending writes behind the
window when the array has room there, whoever else sees that place, and otherwise moves the
window to a new array. A slice that nobody appends to any more keeps its contents.
-/

namespace ProtonDrive.ArraySlices

structure Backing (α : Type) where
  written : List α
  cap : ℕ

abbrev Memory (α : Type) := List (Backing α)

structure Slice where
  array : ℕ
  off : ℕ
  len : ℕ
  deriving DecidableEq, Repr

variable {α : Type}

def Slice.contents (m : Memory α) (s : Slice) : List α :=
  match m[s.array]? with
  | some b => (b.written.drop s.off).take s.len
  | none => []

/-- The window lies in the part of its array that has been written. -/
def Slice.Valid (m : Memory α) (s : Slice) : Prop :=
  ∃ b, m[s.array]? = some b ∧ s.off + s.len ≤ b.written.length

/-- The slice without its first element, `s[1:]`. -/
def Slice.tail (s : Slice) : Slice := { s with off := s.off + 1, len := s.len - 1 }

/-- A nil slice has no array; its contents are empty. -/
def contents (m : Memory α) (s : Option Slice) : List α := (s.map (Slice.contents m)).getD []

def length (s : Option Slice) : ℕ := (s.map Slice.len).getD 0

def tail (s : Option Slice) : Option Slice := s.map Slice.tail

def Valid (m : Memory α) (s : Option Slice) : Prop := ∀ t ∈ s, t.Valid m

/-- A new array that begins with the given elements; `spare` more fit into it. -/
def allocate (m : Memory α) (xs : List α) (spare : ℕ) : Memory α × Slice :=
  (m ++ [⟨xs, xs.length + spare⟩], ⟨m.length, 0, xs.length⟩)

/-- `append(s, x)`; `grow` tells how many more elements a new array of some length has room for. -/
def append (grow : ℕ → ℕ) (m : Memory α) (s : Option Slice) (x : α) : Memory α × Slice :=
  let moved := allocate m (contents m s ++ [x]) (grow (length s + 1))
  match s with
  | none => moved
  | some s => match m[s.array]? with
    | none => moved
    | some b =>
      let i := s.off + s.len
      if i < b.cap then
        (m.set s.array { b with written := b.written.take i ++ x :: b.written.drop (i + 1) },
          { s with len := s.len + 1 })
      else moved

variable {grow : ℕ → ℕ} {m m' : Memory α} {s : Option Slice} {t t' : Slice} {x : α}

theorem length_contents (h : Valid m s) : (contents m s).length = length s := by
  cases s with
  | none => rfl
  | some t =>
    obtain ⟨b, hb, hle⟩ := h t rfl
    simp only [contents, length, Slice.contents, Option.map_some, Option.getD_some, hb,
      List.length_take, List.length_drop]
    omega

theorem contents_tail (h : Valid m s) : contents m (tail s) = (contents m s).drop 1 := by
  cases s with
  | none => rfl
  | some t =>
    obtain ⟨b, hb, -⟩ := h t rfl
    simp [contents, tail, Slice.tail, Slice.contents, hb, List.drop_take]

theorem valid_tail (h : Valid m s) (hs : 0 < length s) : Valid m (tail s) := by
  cases s with
  | none => cases hs
  | some t =>
    obtain ⟨b, hb, hle⟩ := h t rfl
    have hlen : 0 < t.len := hs
    rintro _ ⟨rfl⟩
    exact ⟨b, hb, by simp only [Slice.tail]; omega⟩

/-- What appending does: the slice has one more element, and every slice of another array keeps
its contents. The result stays in its array or moves to a new one. -/
structure Appended (m : Memory α) (s : Option Slice) (x : α) (m' : Memory α) (t : Slice) :
    Prop where
  contents : t.contents m' = ArraySlices.contents m s ++ [x]
  valid : t.Valid m'
  array : (∃ u ∈ s, t.array = u.array) ∨ t.array = m.length
  others : ∀ u : Slice, u.Valid m → (∀ v ∈ s, u.array ≠ v.array) →
    u.Valid m' ∧ u.contents m' = u.contents m

theorem Slice.Valid.array_lt {m : Memory α} {s : Slice} (h : s.Valid m) : s.array < m.length := by
  obtain ⟨b, hb, -⟩ := h
  exact (List.getElem?_eq_some_iff.mp hb).1

theorem appended_allocate (s : Option Slice) (x : α) (spare : ℕ) :
    Appended m s x (allocate m (ArraySlices.contents m s ++ [x]) spare).1
      (allocate m (ArraySlices.contents m s ++ [x]) spare).2 where
  contents := by
    simp only [allocate, Slice.contents, List.getElem?_concat_length, List.drop_zero,
      List.take_length]
  valid := ⟨_, List.getElem?_concat_length, by simp [allocate]⟩
  array := .inr rfl
  others u hu _ := by
    have hsame : (allocate m (ArraySlices.contents m s ++ [x]) spare).1[u.array]? = m[u.array]? :=
      List.getElem?_append_left hu.array_lt
    rw [Slice.Valid, Slice.contents, hsame]
    exact ⟨hu, rfl⟩

/-- Writing behind a window lengthens what is seen through it. -/
theorem window_write {w : List α} {off len : ℕ} (h : off + len ≤ w.length) (x : α) :
    ((w.take (off + len) ++ x :: w.drop (off + len + 1)).drop off).take (len + 1) =
      (w.drop off).take len ++ [x] := by
  have hfront : (w.take (off + len)).drop off = (w.drop off).take len := by
    rw [List.drop_take, Nat.add_sub_cancel_left]
  have hlen : ((w.drop off).take len).length = len := by
    rw [List.length_take, List.length_drop]
    omega
  rw [List.drop_append_of_le_length (by rw [List.length_take]; omega), hfront]
  rw [List.take_append, hlen, List.take_of_length_le (by omega), Nat.add_sub_cancel_left]
  rfl

theorem append_spec (grow : ℕ → ℕ) (hs : Valid m s) (x : α) :
    Appended m s x (append grow m s x).1 (append grow m s x).2 := by
  cases s with
  | none => exact appended_allocate none x _
  | some t =>
    have ht := hs t rfl
    obtain ⟨b, hb, hle⟩ := ht
    simp only [append, hb]
    split_ifs with hroom
    · have hwritten : ∀ b', (m.set t.array b')[t.array]? = some b' := fun b' =>
        List.getElem?_set_self (hs t rfl).array_lt
      refine ⟨?_, ⟨_, hwritten _, ?_⟩, .inl ⟨t, rfl, rfl⟩, fun u hu hother => ?_⟩
      · simp only [Slice.contents, hwritten, window_write hle, contents, Option.map_some,
          Option.getD_some, hb]
      · simp only [List.length_append, List.length_take, List.length_cons, List.length_drop]
        omega
      · have hne : t.array ≠ u.array := fun h => hother t rfl h.symm
        rw [Slice.Valid, Slice.contents, List.getElem?_set_ne hne]
        exact ⟨hu, rfl⟩
    · exact appended_allocate (some t) x _

end ProtonDrive.ArraySlices
