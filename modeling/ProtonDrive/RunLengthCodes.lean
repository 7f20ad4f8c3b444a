import Mathlib.Data.List.Chain
import Mathlib.Algebra.Order.Ring.Int

/-!
# Run-length codes

A list of integers is written segment by segment: a positive count and one entry stand for so
many copies, a negated count is followed by so many literal entries, and zero ends the list. A
reader needs neither the length of the list nor the end of the text. How large the counts get is
told by the list itself: by its runs of equal entries, and by its stretches of entries that stand
alone.
-/

namespace ProtonDrive.RunLengthCodes

section SelfDelimiting

variable {α σ : Type} {encode : α → List σ} {read : List σ → Option (α × List σ)}

/-- What can be read off the front of any text is determined by the text. -/
theorem append_inj_of_read (h : ∀ a rest, read (encode a ++ rest) = some (a, rest)) {a b : α}
    {r r' : List σ} : encode a ++ r = encode b ++ r' ↔ a = b ∧ r = r' := by
  constructor
  · intro he
    have hread := (h a r).symm.trans ((congrArg read he).trans (h b r'))
    exact Prod.ext_iff.mp (Option.some.inj hread)
  · rintro ⟨rfl, rfl⟩
    rfl

end SelfDelimiting

section Blocks

variable {α : Type}

/-- The list with so many copies of each value. -/
def spread (bs : List (ℕ × α)) : List α := bs.flatMap fun b => List.replicate b.1 b.2

@[simp] theorem spread_nil : spread ([] : List (ℕ × α)) = [] := rfl

@[simp] theorem spread_cons (b : ℕ × α) (bs : List (ℕ × α)) :
    spread (b :: bs) = List.replicate b.1 b.2 ++ spread bs := by
  simp [spread]

@[simp] theorem spread_append (bs cs : List (ℕ × α)) :
    spread (bs ++ cs) = spread bs ++ spread cs := by
  simp [spread]

theorem spread_singles (vs : List α) : spread (vs.map fun v => (1, v)) = vs := by
  induction vs with
  | nil => rfl
  | cons v vs ih => simp [ih]

theorem head?_spread {bs : List (ℕ × α)} (hpos : ∀ b ∈ bs, 0 < b.1) :
    (spread bs).head? = bs.head?.map Prod.snd := by
  cases bs with
  | nil => rfl
  | cons b bs =>
    have hb := hpos b List.mem_cons_self
    rw [spread_cons, List.head?_append, List.head?_replicate, if_neg hb.ne']
    rfl

/-- So many equal values in a row lie in one block, when no two blocks of that value touch. -/
theorem replicate_infix_spread_iff {x : α} {n : ℕ} (hn : 0 < n) {bs : List (ℕ × α)}
    (hpos : ∀ b ∈ bs, 0 < b.1) (hapart : bs.IsChain fun b c => b.2 = x → c.2 ≠ x) :
    List.replicate n x <:+: spread bs ↔ ∃ b ∈ bs, b.2 = x ∧ n ≤ b.1 := by
  induction bs with
  | nil => simpa using hn.ne'
  | cons b bs ih =>
    have hpos' : ∀ c ∈ bs, 0 < c.1 := fun c hc => hpos c (List.mem_cons_of_mem b hc)
    obtain ⟨hfirst, htail⟩ := List.isChain_cons.mp hapart
    have hblock : List.replicate n x <:+: List.replicate b.1 b.2 ↔ b.2 = x ∧ n ≤ b.1 := by
      rw [List.infix_replicate_iff, List.length_replicate, List.replicate_inj]
      constructor
      · rintro ⟨hle, -, h | h⟩
        · exact absurd h hn.ne'
        · exact ⟨h.symm, hle⟩
      · rintro ⟨h, hle⟩
        exact ⟨hle, rfl, .inr h.symm⟩
    rw [spread_cons, List.infix_append_iff_ne_nil, hblock, ih hpos' htail, List.exists_mem_cons_iff]
    refine or_congr_right ⟨fun h => h.resolve_right ?_, .inl⟩
    -- a run across the boundary would make both blocks be of the value
    rintro ⟨l₁, l₂, hl₁, hl₂, hl, hs, hp⟩
    obtain ⟨-, hl₁x, hl₂x⟩ := List.append_eq_replicate_iff.mp hl.symm
    have hb : b.2 = x := by
      rw [List.suffix_replicate_iff, hl₁x, List.length_replicate, List.replicate_inj] at hs
      exact (hs.2.2.resolve_left (by simpa using hl₁)).symm
    have hc : (spread bs).head? = some x := by
      obtain ⟨t, ht⟩ := hp
      rw [← ht, hl₂x, List.head?_append, List.head?_replicate]
      simp [hl₂]
    rw [head?_spread hpos', Option.map_eq_some_iff] at hc
    obtain ⟨c, hc, hcx⟩ := hc
    exact hfirst c hc hb hcx

variable [DecidableEq α]

/-- Which entries differ from the entries beside them; `prev` stands before the list. -/
def alone (prev : Option α) : List α → List Bool
  | [] => []
  | v :: vs => (decide (prev ≠ some v) && decide (vs.head? ≠ some v)) :: alone (some v) vs

theorem length_alone (prev : Option α) (l : List α) : (alone prev l).length = l.length := by
  induction l generalizing prev with
  | nil => rfl
  | cons v vs ih => simp [alone, ih]

theorem alone_copies_after (n : ℕ) (v : α) (rest : List α) :
    alone (some v) (List.replicate n v ++ rest) =
      List.replicate n false ++ alone (some v) rest := by
  induction n with
  | zero => rfl
  | succ n ih => simp [List.replicate_succ, alone, ih]

/-- In a run of equal entries none stands alone, unless it is the only one. -/
theorem alone_copies {n : ℕ} (hn : 0 < n) {v : α} {prev : Option α} {rest : List α}
    (hprev : prev ≠ some v) (hrest : rest.head? ≠ some v) :
    alone prev (List.replicate n v ++ rest) =
      List.replicate n (decide (n = 1)) ++ alone (some v) rest := by
  obtain ⟨k, rfl⟩ := Nat.exists_eq_succ_of_ne_zero hn.ne'
  rw [List.replicate_succ, List.cons_append, alone, alone_copies_after]
  cases k with
  | zero => simp [hprev, hrest]
  | succ k => simp [List.replicate_succ]

theorem alone_spread {bs : List (ℕ × α)} (hpos : ∀ b ∈ bs, 0 < b.1)
    (hdiff : bs.IsChain fun b c => b.2 ≠ c.2) {prev : Option α}
    (hprev : ∀ b ∈ bs.head?, prev ≠ some b.2) :
    alone prev (spread bs) = spread (bs.map fun b => (b.1, decide (b.1 = 1))) := by
  induction bs generalizing prev with
  | nil => rfl
  | cons b bs ih =>
    have hpos' : ∀ c ∈ bs, 0 < c.1 := fun c hc => hpos c (List.mem_cons_of_mem b hc)
    obtain ⟨hnext, htail⟩ := List.isChain_cons.mp hdiff
    have hrest : (spread bs).head? ≠ some b.2 := by
      rw [head?_spread hpos', ne_eq, Option.map_eq_some_iff]
      rintro ⟨c, hc, hcb⟩
      exact hnext c hc hcb.symm
    rw [spread_cons, alone_copies (hpos b List.mem_cons_self) (hprev b rfl) hrest,
      ih hpos' htail fun c hc h => hnext c hc (Option.some.inj h), List.map_cons, spread_cons]

end Blocks

section Segments

inductive Segment
  | copies (n : ℕ) (v : ℤ)
  | literals (vs : List ℤ)

def Segment.count : Segment → ℤ
  | .copies n _ => n
  | .literals vs => -vs.length

def Segment.values : Segment → List ℤ
  | .copies _ v => [v]
  | .literals vs => vs

/-- A segment as it is written. -/
def Segment.codes (s : Segment) : List ℤ := s.count :: s.values

/-- The runs of equal entries of a segment. -/
def Segment.blocks : Segment → List (ℕ × ℤ)
  | .copies n v => [(n, v)]
  | .literals vs => vs.map fun v => (1, v)

def Segment.entries (s : Segment) : List ℤ := spread s.blocks

@[simp] theorem Segment.entries_copies (n : ℕ) (v : ℤ) :
    (Segment.copies n v).entries = List.replicate n v := by
  simp [entries, blocks]

@[simp] theorem Segment.entries_literals (vs : List ℤ) : (Segment.literals vs).entries = vs :=
  spread_singles vs

/-- The length of a segment, and whether its entries stand alone. -/
def Segment.stretch : Segment → ℕ × Bool
  | .copies n _ => (n, decide (n = 1))
  | .literals vs => (vs.length, true)

@[simp] theorem Segment.values_copies (n : ℕ) (v : ℤ) : (Segment.copies n v).values = [v] := rfl

@[simp] theorem Segment.values_literals (vs : List ℤ) : (Segment.literals vs).values = vs := rfl

@[simp] theorem Segment.codes_copies (n : ℕ) (v : ℤ) :
    (Segment.copies n v).codes = [(n : ℤ), v] := rfl

@[simp] theorem Segment.codes_literals (vs : List ℤ) :
    (Segment.literals vs).codes = -(vs.length : ℤ) :: vs := rfl

@[simp] theorem Segment.stretch_copies (n : ℕ) (v : ℤ) :
    (Segment.copies n v).stretch = (n, decide (n = 1)) := rfl

@[simp] theorem Segment.stretch_literals (vs : List ℤ) :
    (Segment.literals vs).stretch = (vs.length, true) := rfl

def Segment.Nonempty (s : Segment) : Prop := 0 < s.stretch.1

/-- What the reader waits for: a count, one entry to copy, or so many literal entries. -/
inductive Expect
  | count
  | copies (n : ℕ)
  | literals (n : ℕ)

/-- Read one list off the front of a text; also what is left of the text. -/
def readFrom : Expect → List ℤ → Option (List ℤ × List ℤ)
  | _, [] => none
  | .count, c :: rest =>
    if c = 0 then some ([], rest)
    else readFrom (if 0 < c then .copies c.toNat else .literals c.natAbs) rest
  | .copies n, v :: rest =>
    (readFrom .count rest).map fun r => (List.replicate n v ++ r.1, r.2)
  | .literals n, v :: rest =>
    (readFrom (if n ≤ 1 then .count else .literals (n - 1)) rest).map fun r => (v :: r.1, r.2)

def readList (text : List ℤ) : Option (List ℤ × List ℤ) := readFrom .count text

theorem readFrom_literals {vs : List ℤ} (hvs : vs ≠ []) (rest : List ℤ) :
    readFrom (.literals vs.length) (vs ++ rest) =
      (readFrom .count rest).map fun r => (vs ++ r.1, r.2) := by
  induction vs with
  | nil => exact absurd rfl hvs
  | cons v vs ih =>
    rw [List.cons_append, readFrom]
    cases vs with
    | nil => rfl
    | cons w vs =>
      rw [if_neg (by simp), List.length_cons, Nat.add_sub_cancel, ih (by simp), Option.map_map]
      rfl

/-- The reader takes a segment for what it stands for. -/
theorem readList_segment {s : Segment} (hs : s.Nonempty) (rest : List ℤ) :
    readList (s.codes ++ rest) = (readList rest).map fun r => (s.entries ++ r.1, r.2) := by
  cases s with
  | copies n v =>
    have hn : 0 < n := hs
    simp only [readList, Segment.codes_copies, List.cons_append, List.nil_append, readFrom]
    rw [if_neg (by omega), if_pos (by omega), readFrom]
    simp
  | literals vs =>
    have hlen : 0 < vs.length := hs
    simp only [readList, Segment.codes_literals, List.cons_append, readFrom]
    rw [if_neg (by omega), if_neg (by omega), Int.natAbs_neg, Int.natAbs_natCast,
      readFrom_literals (List.length_pos_iff.mp hlen)]
    simp

/-- A written list is read back whole, and the reader stops at its end. -/
theorem readList_segments {segs : List Segment} (hsegs : ∀ s ∈ segs, s.Nonempty)
    (rest : List ℤ) :
    readList (segs.flatMap Segment.codes ++ 0 :: rest) =
      some (segs.flatMap Segment.entries, rest) := by
  induction segs with
  | nil => rfl
  | cons s segs ih =>
    rw [List.flatMap_cons, List.append_assoc, readList_segment (hsegs s List.mem_cons_self),
      ih fun t ht => hsegs t (List.mem_cons_of_mem s ht)]
    rfl

/-- Segments as long as possible: values written next to each other differ, and no two stretches
of lone entries touch. -/
structure Grouping (segs : List Segment) : Prop where
  nonempty : ∀ s ∈ segs, s.Nonempty
  differ : (segs.flatMap Segment.values).IsChain (· ≠ ·)
  apart : segs.IsChain fun s t => s.stretch.2 = true → t.stretch.2 ≠ true

theorem Grouping.copies {n : ℕ} (hn : 0 < n) (v : ℤ) : Grouping [.copies n v] where
  nonempty := List.forall_mem_singleton.mpr hn
  differ := List.isChain_singleton v
  apart := List.isChain_singleton _

theorem Grouping.literals {vs : List ℤ} (hvs : vs ≠ []) (hchain : vs.IsChain (· ≠ ·)) :
    Grouping [.literals vs] where
  nonempty := List.forall_mem_singleton.mpr (List.length_pos_iff.mpr hvs)
  differ := by simpa using hchain
  apart := List.isChain_singleton _

theorem Grouping.right {segs ts : List Segment} (h : Grouping (segs ++ ts)) : Grouping ts where
  nonempty s hs := h.nonempty s (List.mem_append_right segs hs)
  differ := (List.isChain_append.mp (List.flatMap_append ▸ h.differ)).2.1
  apart := (List.isChain_append.mp h.apart).2.1

/-- The end of a grouping can be grouped otherwise, if it begins with the same value and does
not begin to stand alone. -/
theorem Grouping.replace {segs ts ts' : List Segment} (h : Grouping (segs ++ ts))
    (hts : Grouping ts')
    (hvalue : (ts'.flatMap Segment.values).head? = (ts.flatMap Segment.values).head?)
    (hstretch : ∀ t' ∈ ts'.head?, t'.stretch.2 = true → ∃ t ∈ ts.head?, t.stretch.2 = true) :
    Grouping (segs ++ ts') where
  nonempty s hs := by
    rcases List.mem_append.mp hs with hs | hs
    · exact h.nonempty s (List.mem_append_left ts hs)
    · exact hts.nonempty s hs
  differ := by
    have hd := h.differ
    rw [List.flatMap_append, List.isChain_append] at hd ⊢
    exact ⟨hd.1, hts.differ, hvalue ▸ hd.2.2⟩
  apart := by
    have ha := List.isChain_append.mp h.apart
    refine List.isChain_append.mpr ⟨ha.1, hts.apart, fun s hs t' ht' halone halone' => ?_⟩
    obtain ⟨t, ht, htrue⟩ := hstretch t' ht' halone'
    exact ha.2.2 s hs t ht halone htrue

theorem Segment.blocks_pos {s : Segment} (hs : s.Nonempty) : ∀ b ∈ s.blocks, 0 < b.1 := by
  cases s with
  | copies n v =>
    have hn : 0 < n := hs
    simpa [Segment.blocks] using hn
  | literals vs => simp [Segment.blocks]

theorem Segment.mem_values_iff {s : Segment} (hs : s.Nonempty) {v : ℤ} :
    v ∈ s.values ↔ v ∈ s.entries := by
  cases s with
  | copies n w =>
    have hn : n ≠ 0 := Nat.pos_iff_ne_zero.mp hs
    simp [hn]
  | literals vs => simp

theorem spread_flatMap {α β : Type} (f : β → List (ℕ × α)) (xs : List β) :
    spread (xs.flatMap f) = xs.flatMap fun x => spread (f x) := by
  simp [spread, List.flatMap_assoc]

theorem Segment.spread_blocks_alone (s : Segment) :
    spread (s.blocks.map fun b => (b.1, decide (b.1 = 1))) =
      List.replicate s.stretch.1 s.stretch.2 := by
  cases s with
  | copies n v => simp [Segment.blocks]
  | literals vs =>
    simpa [Segment.blocks, Function.comp_def] using
      spread_singles (List.replicate vs.length true)

variable {segs : List Segment}

theorem Grouping.blocks_pos (h : Grouping segs) : ∀ b ∈ segs.flatMap Segment.blocks, 0 < b.1 := by
  intro b hb
  obtain ⟨s, hs, hb⟩ := List.mem_flatMap.mp hb
  exact Segment.blocks_pos (h.nonempty s hs) b hb

theorem Grouping.differ_blocks (h : Grouping segs) :
    (segs.flatMap Segment.blocks).IsChain fun b c => b.2 ≠ c.2 := by
  have hvalues : segs.flatMap Segment.values = (segs.flatMap Segment.blocks).map Prod.snd := by
    rw [List.map_flatMap]
    refine List.flatMap_congr fun s _ => ?_
    cases s <;> simp [Segment.blocks, Function.comp_def]
  have hdiffer := h.differ
  rwa [hvalues, List.isChain_map] at hdiffer

theorem entries_eq_spread (segs : List Segment) :
    segs.flatMap Segment.entries = spread (segs.flatMap Segment.blocks) :=
  (spread_flatMap Segment.blocks segs).symm

/-- The lone entries of a grouped list are those of its stretches. -/
theorem Grouping.alone_entries (h : Grouping segs) :
    alone none (segs.flatMap Segment.entries) = spread (segs.map Segment.stretch) := by
  rw [entries_eq_spread, alone_spread h.blocks_pos h.differ_blocks (by simp), List.map_flatMap,
    spread_flatMap]
  simp only [Segment.spread_blocks_alone]
  rw [spread, List.flatMap_map]

/-- A long run of equal entries is one segment of copies. -/
theorem Grouping.replicate_infix_iff (h : Grouping segs) {n : ℕ} (hn : 1 < n) {v : ℤ} :
    List.replicate n v <:+: segs.flatMap Segment.entries ↔
      ∃ m, n ≤ m ∧ .copies m v ∈ segs := by
  rw [entries_eq_spread, replicate_infix_spread_iff (by omega) h.blocks_pos
    (h.differ_blocks.imp fun b c hd hb hc => hd (hb.trans hc.symm))]
  constructor
  · rintro ⟨b, hb, hbv, hle⟩
    obtain ⟨s, hs, hb⟩ := List.mem_flatMap.mp hb
    cases s with
    | copies m w =>
      obtain rfl := List.mem_singleton.mp hb
      obtain rfl : w = v := hbv
      exact ⟨m, hle, hs⟩
    | literals vs =>
      obtain ⟨w, -, rfl⟩ := List.mem_map.mp hb
      exact absurd hle (by simpa using hn)
  · rintro ⟨m, hle, hs⟩
    exact ⟨(m, v), List.mem_flatMap.mpr ⟨_, hs, List.mem_singleton_self _⟩, rfl, hle⟩

/-- A long stretch of lone entries is one segment of literals. -/
theorem Grouping.alone_infix_iff (h : Grouping segs) {n : ℕ} (hn : 1 < n) :
    List.replicate n true <:+: alone none (segs.flatMap Segment.entries) ↔
      ∃ vs, n ≤ vs.length ∧ .literals vs ∈ segs := by
  rw [h.alone_entries, replicate_infix_spread_iff (by omega)
    (List.forall_mem_map.mpr h.nonempty) ((List.isChain_map _).mpr h.apart)]
  constructor
  · rintro ⟨b, hb, htrue, hle⟩
    obtain ⟨s, hs, rfl⟩ := List.mem_map.mp hb
    cases s with
    | copies m v =>
      obtain rfl : m = 1 := by simpa using htrue
      exact absurd hle (by simpa using hn)
    | literals vs => exact ⟨vs, hle, hs⟩
  · rintro ⟨vs, hle, hs⟩
    exact ⟨_, List.mem_map_of_mem hs, rfl, hle⟩

/-- All numbers of a written list lie between `-(limit + 1)` and `limit` exactly when its entries do
and neither a run nor a stretch of lone entries is too long for its count. -/
theorem Grouping.codes_bounded_iff (h : Grouping segs) {limit : ℕ} (hlimit : 0 < limit) :
    (∀ c ∈ segs.flatMap Segment.codes, -(limit + 1 : ℤ) ≤ c ∧ c ≤ limit) ↔
      (∀ v ∈ segs.flatMap Segment.entries, -(limit + 1 : ℤ) ≤ v ∧ v ≤ limit) ∧
      (∀ v, ¬ List.replicate (limit + 1) v <:+: segs.flatMap Segment.entries) ∧
      ¬ List.replicate (limit + 2) true <:+: alone none (segs.flatMap Segment.entries) := by
  have hentries : ∀ v, v ∈ segs.flatMap Segment.entries ↔ v ∈ segs.flatMap Segment.values := by
    intro v
    simp only [List.mem_flatMap]
    exact exists_congr fun s => and_congr_right fun hs =>
      (Segment.mem_values_iff (h.nonempty s hs)).symm
  simp only [h.alone_infix_iff (show 1 < limit + 2 by omega),
    h.replicate_infix_iff (show 1 < limit + 1 by omega), not_exists, not_and, hentries]
  constructor
  · intro hc
    refine ⟨fun v hv => ?_, fun v m hle hs => ?_, fun vs hle hs => ?_⟩
    · obtain ⟨s, hs, hv⟩ := List.mem_flatMap.mp hv
      exact hc v (List.mem_flatMap.mpr ⟨s, hs, List.mem_cons_of_mem _ hv⟩)
    · have hm : (m : ℤ) ≤ limit := (hc m (List.mem_flatMap.mpr ⟨_, hs, List.mem_cons_self⟩)).2
      omega
    · have hlen : -(limit + 1 : ℤ) ≤ -vs.length :=
        (hc _ (List.mem_flatMap.mpr ⟨_, hs, List.mem_cons_self⟩)).1
      omega
  · rintro ⟨hv, hruns, hlone⟩ c hc
    obtain ⟨s, hs, hc⟩ := List.mem_flatMap.mp hc
    rcases List.mem_cons.mp hc with rfl | hc
    · cases s with
      | copies m v =>
        have hm : ¬ limit + 1 ≤ m := fun hle => hruns v m hle hs
        simp only [Segment.count]
        omega
      | literals vs =>
        have hlen : ¬ limit + 2 ≤ vs.length := fun hle => hlone vs hle hs
        simp only [Segment.count]
        omega
    · exact hv c (List.mem_flatMap.mpr ⟨s, hs, hc⟩)

end Segments

end ProtonDrive.RunLengthCodes
