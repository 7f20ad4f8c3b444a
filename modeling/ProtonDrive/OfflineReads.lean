import ProtonDrive.FileReads

/-!
# Which blocks an offline read needs

`readFromCache` of `session.go` asks for a run of blocks that it computes from the size of the
file and the requested range, both as 64-bit integers. The blocks a range needs are those it
overlaps; the two differ at the end of the file and where the end of the range overflows.
-/

namespace ProtonDrive.OfflineReads
open FallibleSteps DriveApi DriveSession DriveSession.Session BlockedFiles FileReads

/-- The end of a range within the file; length zero means to the end. -/
def rangeEnd (F : Bytes) (o l : ℕ) : ℕ := if l = 0 then F.length else min (o + l) F.length

/-- Block `i` holds a byte of the range. -/
def Overlaps (F : Bytes) (o l i : ℕ) : Prop :=
  ∃ b, o ≤ b ∧ b < rangeEnd F o l ∧ b / protonBlockSize = i

/-- The last block of a range that is not empty. -/
def lastBlock (F : Bytes) (o l : ℕ) : ℕ := (rangeEnd F o l - 1) / protonBlockSize

theorem rangeEnd_le (F : Bytes) (o l : ℕ) : rangeEnd F o l ≤ F.length := by
  rw [rangeEnd]
  split_ifs
  · exact le_rfl
  · exact Nat.min_le_right ..

variable {F : Bytes} {o l i : ℕ}

theorem overlaps_iff : Overlaps F o l i ↔
    o < rangeEnd F o l ∧ o / protonBlockSize ≤ i ∧ i ≤ lastBlock F o l := by
  simp only [Overlaps, lastBlock, protonBlockSize]
  constructor
  · rintro ⟨b, hob, hb, rfl⟩
    omega
  · rintro ⟨ho, hlow, hhigh⟩
    -- the first byte of the range in the block
    refine ⟨max o (i * (4 * 1024 * 1024)), by omega, ?_, ?_⟩ <;> omega

theorem lt_rangeEnd (ho : o < F.length) : o < rangeEnd F o l := by
  rw [rangeEnd]
  split_ifs <;> omega

/-- A range that starts at the end of the file overlaps no block. -/
theorem not_overlaps_end : ¬ Overlaps F F.length l i := by
  rw [overlaps_iff]
  have hle := rangeEnd_le F F.length l
  omega

variable {KR : Type} {w : World} {linkID : LinkID} {revID : RevisionID} {s : Session KR}

/-- The cache holds block `i`, and can read it when the loop that starts with block `k` asks for
it. -/
def Found (w : World) (linkID : LinkID) (revID : RevisionID) (s : Session KR) (k i : ℕ) : Prop :=
  ∃ bc d, s.blocks = some bc ∧ bc.dataAt (BlockCache.blockPath linkID revID i) = some d ∧
    w.disk (s.ticks + (i - k)) = .done

/-- What is asked of an offline read: it fails when the cache is disabled or a block of the range
is absent, and returns the bytes of the range otherwise. -/
def ServesRange (w : World) (linkID : LinkID) (revID : RevisionID) (F : Bytes) (o l : ℕ)
    (s : Session KR) : Prop :=
  let result := (readFromCache w linkID revID F.length o l s).result
  (result = .error .offline ↔
    s.blocks = none ∨ ∃ i, Overlaps F o l i ∧ ¬ Found w linkID revID s (o / protonBlockSize) i) ∧
  (result ≠ .error .offline → result = .ok (limit l (F.drop o)))

section Loop

theorem cachedBlock_found {k : ℕ} (h : CacheAgrees F linkID revID 0 s)
    (hf : Found w linkID revID s k k) :
    ∃ s', cachedBlock w linkID revID k s = (some (fileBlock F k), s') ∧
      CacheAgrees F linkID revID 0 s' ∧
      ∀ i, k < i → (Found w linkID revID s' (k + 1) i ↔ Found w linkID revID s k i) := by
  obtain ⟨bc, d, hb, hd, hdisk⟩ := hf
  obtain ⟨f, hlookup, rfl⟩ := Option.map_eq_some_iff.mp hd
  rw [Nat.sub_self, Nat.add_zero] at hdisk
  have hagrees := cachedBlock_agrees (w := w) h k
  have hdata := BlockCache.Cache.dataAt_getBlock bc (w.now s.ticks) (w.disk s.ticks) linkID revID k
  simp only [cachedBlock, hb] at hagrees ⊢
  have hhit : (bc.getBlock (w.now s.ticks) (w.disk s.ticks) linkID revID k).1 = some f.data := by
    simp only [BlockCache.Cache.getBlock, hdisk, hlookup]
  refine ⟨_, Prod.ext ?_ rfl, hagrees.1, fun i hi => ?_⟩
  · exact hhit.trans (congrArg some (hagrees.2 k f.data rfl (Nat.zero_le _) hhit))
  · have hticks : s.ticks + 1 + (i - (k + 1)) = s.ticks + (i - k) := by omega
    simp only [Found, hb, Option.some.injEq, exists_and_left, exists_eq_left', hdata, hticks]

theorem cachedBlock_not_found {k : ℕ} (hf : ¬ Found w linkID revID s k k) :
    ∃ s', cachedBlock w linkID revID k s = (none, s') := by
  rw [cachedBlock]
  cases hb : s.blocks with
  | none => exact ⟨s, rfl⟩
  | some bc =>
    refine ⟨_, Prod.ext ?_ rfl⟩
    simp only [BlockCache.Cache.getBlock]
    split
    · next f hdisk hlookup =>
      refine absurd ⟨bc, f.data, hb, ?_, ?_⟩ hf
      · rw [BlockCache.Cache.dataAt, hlookup]
        rfl
      · rw [Nat.sub_self, Nat.add_zero, hdisk]
    · rfl

/-- The loop succeeds when it finds all its blocks, and then it has read them in order. -/
theorem readCached_result (h : CacheAgrees F linkID revID 0 s) (n k : ℕ) (buf : Bytes) :
    ((∀ i, k ≤ i → i < k + n → Found w linkID revID s k i) →
      (readCached w linkID revID n k buf s).result =
        .ok (buf ++ (List.range' k n).flatMap (fileBlock F))) ∧
    ((∃ i, k ≤ i ∧ i < k + n ∧ ¬ Found w linkID revID s k i) →
      (readCached w linkID revID n k buf s).result = .error .offline) := by
  induction n generalizing k buf s with
  | zero => exact ⟨fun _ => by simp [readCached], fun ⟨i, hk, hi, _⟩ => by omega⟩
  | succ n ih =>
    rw [readCached]
    by_cases hk : Found w linkID revID s k k
    · obtain ⟨s', hc, h', hfound⟩ := cachedBlock_found h hk
      rw [hc]
      dsimp only
      have hnext := ih h' (k + 1) (buf ++ fileBlock F k)
      rw [List.append_assoc] at hnext
      constructor
      · intro hall
        exact hnext.1 fun i hi hn => (hfound i hi).mpr (hall i (by omega) (by omega))
      · rintro ⟨i, hki, hin, hi⟩
        have hne : k ≠ i := fun he => hi (he ▸ hk)
        have hlt : k < i := by omega
        exact hnext.2 ⟨i, hlt, by omega, fun hf => hi ((hfound i hlt).mp hf)⟩
    · obtain ⟨s', hc⟩ := cachedBlock_not_found hk
      rw [hc]
      exact ⟨fun hall => absurd (hall k le_rfl (by omega)) hk, fun _ => rfl⟩

end Loop

section Ranges

/-- How many blocks the loop of `readFromCache` asks for. -/
def asked (F : Bytes) (o l : ℕ) : ℕ :=
  let endByte : ℤ := if 0 < (l : ℤ) ∧ wrap64 (o + l) < F.length then wrap64 (o + l) else F.length
  ((dec64 endByte).tdiv protonBlockSize - (o / protonBlockSize : ℕ) + 1).toNat

/-- Every block the loop asks for is found. -/
def AskedFound (w : World) (linkID : LinkID) (revID : RevisionID) (F : Bytes) (o l : ℕ)
    (s : Session KR) : Prop :=
  ∀ i, o / protonBlockSize ≤ i → i < o / protonBlockSize + asked F o l →
    Found w linkID revID s (o / protonBlockSize) i

theorem readFromCache_disabled (hb : s.blocks = none) (o l : ℤ) :
    readFromCache w linkID revID F.length o l s = ⟨.error .offline, s⟩ := by
  rw [readFromCache, hb]

/-- With a block cache, a read fails when a block it asks for is not found, and returns what the
blocks it asks for hold of the range otherwise. -/
theorem readFromCache_result (h : CacheAgrees F linkID revID 0 s) (hb : s.blocks ≠ none)
    (o l : ℕ) :
    (AskedFound w linkID revID F o l s → (readFromCache w linkID revID F.length o l s).result =
      .ok (limit l ((F.drop o).take
        ((o / protonBlockSize + asked F o l) * protonBlockSize - o)))) ∧
    (¬ AskedFound w linkID revID F o l s →
      (readFromCache w linkID revID F.length o l s).result = .error .offline) := by
  have hdiv := natCast_tdiv_blockSize o
  obtain ⟨bc, hbc⟩ := Option.ne_none_iff_exists'.mp hb
  have hread : readFromCache w linkID revID F.length o l s =
      (readCached w linkID revID (asked F o l) (o / protonBlockSize : ℕ) [] s).andThen fun buf s =>
        ⟨.ok (sliceRange buf (o / protonBlockSize : ℕ) o l), s⟩ := by
    rw [readFromCache, hbc]
    simp only [hdiv, asked]
  obtain ⟨hok, hmiss⟩ := readCached_result (w := w) h (asked F o l) (o / protonBlockSize) []
  rw [hread]
  constructor
  · intro hall
    have hrun := hok hall
    generalize readCached w linkID revID (asked F o l) (o / protonBlockSize : ℕ) [] s = r at hrun ⊢
    obtain ⟨_, s'⟩ := r
    cases hrun
    rw [List.nil_append, flatMap_chunk]
    exact congrArg Except.ok (sliceRange_chunks o l _)
  · intro hall
    have hrun := hmiss (by simpa [AskedFound] using hall)
    generalize readCached w linkID revID (asked F o l) (o / protonBlockSize : ℕ) [] s = r at hrun ⊢
    obtain ⟨_, s'⟩ := r
    cases hrun
    rfl

theorem tdiv_blockSize {x : ℤ} (h : 0 ≤ x) : x.tdiv protonBlockSize = x / protonBlockSize :=
  Int.tdiv_eq_ediv_of_nonneg h

/-- Division truncates towards zero. -/
theorem neg_tdiv_blockSize {x : ℤ} (h : 0 ≤ x) :
    (-x).tdiv protonBlockSize = -(x / protonBlockSize) := by
  rw [Int.neg_tdiv, tdiv_blockSize h]

theorem wrap64_of_lt (h : o + l < 2 ^ 63) : wrap64 ((o : ℤ) + l) = o + l := by
  rw [wrap64, Int.bmod_eq_of_le] <;> omega

theorem wrap64_of_ge (h : 2 ^ 63 ≤ o + l) (hmax : o + l < 2 ^ 64) :
    wrap64 ((o : ℤ) + l) = o + l - 2 ^ 64 := by
  have hmod : ((o : ℤ) + l) % (2 ^ 64 : ℕ) = o + l := Int.emod_eq_of_lt (by omega) (by omega)
  simp only [wrap64, Int.bmod, hmod]
  omega

/-- Inside the file the loop asks for the blocks up to the last one of the range. -/
theorem asked_inside (hsum : o + l < 2 ^ 63) (ho : o < F.length) :
    o / protonBlockSize + asked F o l = lastBlock F o l + 1 := by
  have hlt := lt_rangeEnd (l := l) ho
  have hend : (if 0 < (l : ℤ) ∧ (o : ℤ) + l < F.length then (o : ℤ) + l else F.length) =
      (rangeEnd F o l : ℕ) := by
    rw [rangeEnd]
    split_ifs <;> omega
  have hdec : dec64 (rangeEnd F o l : ℕ) = (rangeEnd F o l : ℕ) - 1 := by
    rw [dec64, if_neg (by omega)]
  simp only [asked, wrap64_of_lt hsum, hend, hdec]
  rw [tdiv_blockSize (by omega), lastBlock]
  simp only [protonBlockSize] at *
  omega

/-- At the end of the file it asks for the block that would hold the next byte, unless the end is
a block boundary other than the start. -/
theorem asked_end (hsum : F.length + l < 2 ^ 63) :
    asked F F.length l = if 0 < F.length ∧ protonBlockSize ∣ F.length then 0 else 1 := by
  have hend : (if 0 < (l : ℤ) ∧ (F.length : ℤ) + l < F.length then (F.length : ℤ) + l
      else F.length) = F.length := if_neg (by omega)
  have hdec : dec64 F.length = F.length - 1 := by
    rw [dec64, if_neg (by omega)]
  simp only [asked, wrap64_of_lt hsum, hend, hdec]
  rcases Nat.eq_zero_or_pos F.length with h0 | hpos
  · simp [h0, protonBlockSize]
  · rw [tdiv_blockSize (by omega)]
    simp only [protonBlockSize, Nat.dvd_iff_mod_eq_zero]
    split_ifs <;> omega

/-- A range that ends one byte beyond the largest offset is taken to end with the last block there
can be. -/
theorem asked_edge (hsum : o + l = 2 ^ 63) (hl : 0 < l) :
    o / protonBlockSize + asked F o l = 2 ^ 41 := by
  have hend : (if 0 < (l : ℤ) ∧ (-2 ^ 63 : ℤ) < F.length then (-2 ^ 63 : ℤ) else F.length) =
      -2 ^ 63 := if_pos (by omega)
  have hwrap : wrap64 ((o : ℤ) + l) = -2 ^ 63 := by
    rw [wrap64_of_ge (by omega) (by omega)]
    omega
  have hdec : dec64 (-2 ^ 63) = 2 ^ 63 - 1 := rfl
  simp only [asked, hwrap, hend, hdec]
  rw [tdiv_blockSize (by omega)]
  simp only [protonBlockSize] at *
  omega

/-- A range that ends further out is taken to end before the file, and no block is asked for. -/
theorem asked_beyond (hsum : 2 ^ 63 < o + l) (ho : o < 2 ^ 63) (hl : l < 2 ^ 63) :
    asked F o l = 0 := by
  have hwrap : wrap64 ((o : ℤ) + l) = o + l - 2 ^ 64 := wrap64_of_ge (by omega) (by omega)
  have hend : (if 0 < (l : ℤ) ∧ (o + l - 2 ^ 64 : ℤ) < F.length then (o + l - 2 ^ 64 : ℤ)
      else F.length) = o + l - 2 ^ 64 := if_pos (by omega)
  have hdec : dec64 (o + l - 2 ^ 64) = -(2 ^ 64 + 1 - o - l) := by
    rw [dec64, if_neg (by omega)]
    omega
  simp only [asked, hwrap, hend, hdec]
  rw [neg_tdiv_blockSize (by omega)]
  simp only [protonBlockSize] at *
  omega

/-- When an offline read of a range does what it should, apart from a disabled cache: the range
begins inside the file, or its end is a block boundary, or the block of the next byte is cached;
and the end of the range does not overflow, unless that makes no difference. -/
def Exact (w : World) (linkID : LinkID) (revID : RevisionID) (F : Bytes) (o l : ℕ)
    (s : Session KR) : Prop :=
  if o + l < 2 ^ 63 then
    o < F.length ∨ (0 < F.length ∧ protonBlockSize ∣ F.length) ∨
      Found w linkID revID s (o / protonBlockSize) (o / protonBlockSize)
  else if o + l = 2 ^ 63 then
    (∃ i, Overlaps F o l i ∧ ¬ Found w linkID revID s (o / protonBlockSize) i) ∨
      ∀ i, o / protonBlockSize ≤ i → i < 2 ^ 41 → Found w linkID revID s (o / protonBlockSize) i
  else o = F.length

/-- The property in terms of what the loop asks for. -/
theorem servesRange_iff (h : CacheAgrees F linkID revID 0 s) (hb : s.blocks ≠ none) :
    ServesRange w linkID revID F o l s ↔
      (AskedFound w linkID revID F o l s ↔
        ∀ i, Overlaps F o l i → Found w linkID revID s (o / protonBlockSize) i) ∧
      (AskedFound w linkID revID F o l s → limit l ((F.drop o).take
        ((o / protonBlockSize + asked F o l) * protonBlockSize - o)) = limit l (F.drop o)) := by
  obtain ⟨hok, hmiss⟩ := readFromCache_result (w := w) h hb o l
  rw [ServesRange]
  by_cases ha : AskedFound w linkID revID F o l s
  · simp [hok ha, ha, hb]
  · simp [hmiss ha, ha, hb]

theorem servesRange_inside (h : CacheAgrees F linkID revID 0 s) (hb : s.blocks ≠ none)
    (hsum : o + l < 2 ^ 63) (ho : o < F.length) : ServesRange w linkID revID F o l s := by
  have hasked := asked_inside hsum ho
  have hlt := lt_rangeEnd (l := l) ho
  refine (servesRange_iff h hb).mpr ⟨?_, fun _ => ?_⟩
  · simp only [AskedFound, hasked, overlaps_iff]
    constructor
    · rintro hall i ⟨-, hlow, hhigh⟩
      exact hall i hlow (Nat.lt_succ_of_le hhigh)
    · intro hall i hlow hhigh
      exact hall i ⟨hlt, hlow, Nat.le_of_lt_succ hhigh⟩
  · rw [hasked, limit_take_eq_iff]
    -- the blocks reach at least to the end of the range
    have hreach : rangeEnd F o l ≤ (lastBlock F o l + 1) * protonBlockSize := by
      simp only [lastBlock, protonBlockSize]
      omega
    rw [rangeEnd] at hreach hlt
    split_ifs at hreach hlt with hl <;> omega

theorem servesRange_end_iff (h : CacheAgrees F linkID revID 0 s) (hb : s.blocks ≠ none)
    (hsum : F.length + l < 2 ^ 63) :
    ServesRange w linkID revID F F.length l s ↔ (0 < F.length ∧ protonBlockSize ∣ F.length) ∨
      Found w linkID revID s (F.length / protonBlockSize) (F.length / protonBlockSize) := by
  have hnone : ∀ i, Overlaps F F.length l i →
      Found w linkID revID s (F.length / protonBlockSize) i :=
    fun i hi => absurd hi not_overlaps_end
  rw [servesRange_iff h hb, limit_take_eq_iff]
  simp only [iff_true_right hnone, le_refl, or_true, implies_true, and_true, AskedFound,
    asked_end hsum]
  split_ifs with hboundary
  · exact iff_of_true (fun i hlow hhigh => by omega) (.inl hboundary)
  · simp only [hboundary, false_or]
    constructor
    · exact fun hall => hall _ le_rfl (Nat.lt_succ_self _)
    · intro hf i hlow hhigh
      obtain rfl := Nat.le_antisymm (Nat.le_of_lt_succ hhigh) hlow
      exact hf

theorem servesRange_edge_iff (h : CacheAgrees F linkID revID 0 s) (hb : s.blocks ≠ none)
    (hsize : F.length < 2 ^ 63) (hsum : o + l = 2 ^ 63) (hl : 0 < l) :
    ServesRange w linkID revID F o l s ↔
      (∃ i, Overlaps F o l i ∧ ¬ Found w linkID revID s (o / protonBlockSize) i) ∨
      ∀ i, o / protonBlockSize ≤ i → i < 2 ^ 41 →
        Found w linkID revID s (o / protonBlockSize) i := by
  have hasked := asked_edge (F := F) hsum hl
  have hwithin : ∀ i, Overlaps F o l i → o / protonBlockSize ≤ i ∧ i < 2 ^ 41 := by
    intro i hi
    obtain ⟨-, hlow, hhigh⟩ := overlaps_iff.mp hi
    refine ⟨hlow, ?_⟩
    have hle := rangeEnd_le F o l
    simp only [lastBlock, protonBlockSize] at hhigh
    omega
  have hdata : limit l ((F.drop o).take (2 ^ 41 * protonBlockSize - o)) = limit l (F.drop o) := by
    rw [limit_take_eq_iff]
    simp only [protonBlockSize]
    omega
  rw [servesRange_iff h hb, AskedFound, hasked]
  simp only [hdata, implies_true, and_true]
  constructor
  · intro hiff
    by_cases hall : ∀ i, Overlaps F o l i → Found w linkID revID s (o / protonBlockSize) i
    · exact .inr (hiff.mpr hall)
    · simp only [not_forall] at hall
      obtain ⟨i, hi, hf⟩ := hall
      exact .inl ⟨i, hi, hf⟩
  · rintro (⟨i, hi, hf⟩ | hall)
    · refine iff_of_false (fun hall => hf (hall i (hwithin i hi).1 (hwithin i hi).2)) ?_
      exact fun hall => hf (hall i hi)
    · exact iff_of_true hall fun i hi => hall i (hwithin i hi).1 (hwithin i hi).2

theorem servesRange_beyond_iff (h : CacheAgrees F linkID revID 0 s) (hb : s.blocks ≠ none)
    (ho : o ≤ F.length) (hsize : F.length < 2 ^ 63) (hsum : 2 ^ 63 < o + l) (hl : l < 2 ^ 63) :
    ServesRange w linkID revID F o l s ↔ o = F.length := by
  have hasked := asked_beyond (F := F) hsum (by omega) hl
  have hnone : AskedFound w linkID revID F o l s := by
    rw [AskedFound, hasked]
    intro i hlow hhigh
    omega
  have hdiv := Nat.div_mul_le_self o protonBlockSize
  rw [servesRange_iff h hb, limit_take_eq_iff, hasked, Nat.add_zero]
  simp only [hnone, true_iff, true_implies]
  constructor
  · rintro ⟨-, hdata⟩
    omega
  · rintro rfl
    exact ⟨fun i hi => absurd hi not_overlaps_end, .inr (.inr le_rfl)⟩

/-- An offline read fails if and only if the block cache is disabled or a block of the range is
absent, and otherwise returns the bytes of the range, exactly when the cache is disabled or the
range is one that `readFromCache` computes the blocks of. -/
theorem offline_read_exact_iff (h : CacheAgrees F linkID revID 0 s) (hsize : F.length < 2 ^ 63)
    (ho : o ≤ F.length) (hl : l < 2 ^ 63) :
    ServesRange w linkID revID F o l s ↔ s.blocks = none ∨ Exact w linkID revID F o l s := by
  by_cases hb : s.blocks = none
  · refine iff_of_true ?_ (.inl hb)
    simp [ServesRange, readFromCache_disabled hb, hb]
  simp only [hb, false_or, Exact]
  split_ifs with hsum hedge
  · rcases Nat.lt_or_eq_of_le ho with hlt | rfl
    · exact iff_of_true (servesRange_inside h hb hsum hlt) (.inl hlt)
    · rw [servesRange_end_iff h hb hsum]
      simp
  · exact servesRange_edge_iff h hb hsize hedge (by omega)
  · exact servesRange_beyond_iff h hb ho hsize (by omega) hl

/-- A session whose cache holds the only block of a file of three bytes. -/
def oneBlock : Session Unit :=
  newSession "root" (some ⟨100, 90, (∅ : KeyedMaps.KeyMap _ _).insert
    (BlockCache.blockPath "F" "rev1" (0 : ℕ)) ⟨[1, 2, 3], 0⟩⟩)

theorem oneBlock_agrees : CacheAgrees [1, 2, 3] "F" "rev1" 0 oneBlock := by
  intro bc hbc i d _ hd
  obtain rfl := Option.some.inj hbc
  simp only [BlockCache.Cache.dataAt, KeyedMaps.lookup_insert_ite, AList.lookup_empty,
    BlockCache.blockPath] at hd
  split_ifs at hd with hi
  · obtain rfl : i = 0 := by simpa using hi
    obtain rfl : [1, 2, 3] = d := by simpa using hd
    simp [fileBlock, chunk, protonBlockSize]
  · cases hd

/-- From the second byte on, the file is read from the cache. -/
theorem offline_read_exact_tail :
    ServesRange (World.cut (serverOf [])) "F" "rev1" [1, 2, 3] 1 0 oneBlock :=
  (offline_read_exact_iff oneBlock_agrees (by decide) (by decide) (by decide)).mpr
    (.inr (.inl (by decide)))

/-- An empty file cannot be read offline, though it has no block that could be absent. -/
theorem offline_read_exact_fails :
    ¬ ServesRange (World.cut (serverOf [])) "F" "rev1" [] 0 0
      (newSession "root" (some ⟨100, 90, ∅⟩) : Session Unit) := by
  intro h
  have hoffline : (readFromCache (World.cut (serverOf [])) "F" "rev1" ([] : Bytes).length
      (0 : ℕ) (0 : ℕ) (newSession "root" (some ⟨100, 90, ∅⟩) : Session Unit)).result =
        .error .offline := by
    decide +kernel
  rcases h.1.mp hoffline with hb | ⟨i, hi, -⟩
  · cases hb
  · exact not_overlaps_end hi

end Ranges

end ProtonDrive.OfflineReads
