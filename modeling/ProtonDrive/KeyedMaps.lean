import Mathlib.Data.List.AList

/-!
# Keyed maps with an unspecified iteration order

Finite maps with the operations of Go's built-in maps: insertion, deletion, deletion of
every key that passes a test, and iteration in an order the language leaves open. An
iteration order is a permutation of the keys that the run may choose.
-/

namespace ProtonDrive.KeyedMaps

abbrev KeyMap (κ ν : Type) := AList (fun _ : κ => ν)

variable {κ ν : Type}

/-- The order in which one `range` loop visits the keys of a map. -/
structure RangeOrder (κ : Type) where
  arrange : List κ → List κ
  perm : ∀ l, (arrange l).Perm l

instance : Inhabited (RangeOrder κ) := ⟨⟨id, fun _ => .refl _⟩⟩

@[simp] theorem RangeOrder.mem_arrange (o : RangeOrder κ) {l : List κ} {k : κ} :
    k ∈ o.arrange l ↔ k ∈ l := (o.perm l).mem_iff

theorem RangeOrder.nodup_arrange (o : RangeOrder κ) {l : List κ} (h : l.Nodup) :
    (o.arrange l).Nodup := (o.perm l).nodup_iff.mpr h

/-- Delete every key that passes the test; the order of a deleting loop is immaterial. -/
def dropKeys (P : κ → Bool) (m : KeyMap κ ν) : KeyMap κ ν where
  entries := m.entries.filter (fun e => !P e.1)
  nodupKeys := m.nodupKeys.sublist List.filter_sublist

variable [DecidableEq κ]

theorem lookup_insert_ite (m : KeyMap κ ν) (k k' : κ) (v : ν) :
    (m.insert k v).lookup k' = if k' = k then some v else m.lookup k' := by
  split_ifs with h
  · subst h; exact AList.lookup_insert m
  · exact AList.lookup_insert_ne h

theorem lookup_erase_ite (m : KeyMap κ ν) (k k' : κ) :
    (m.erase k).lookup k' = if k' = k then none else m.lookup k' := by
  split_ifs with h
  · subst h; exact AList.lookup_erase _ m
  · exact AList.lookup_erase_ne h

theorem lookup_dropKeys (P : κ → Bool) (m : KeyMap κ ν) (k : κ) :
    (dropKeys P m).lookup k = if P k then none else m.lookup k := by
  ext v
  have hf : v ∈ (dropKeys P m).lookup k ↔ v ∈ m.lookup k ∧ (!P k) = true := by
    rw [AList.mem_lookup_iff, AList.mem_lookup_iff]
    exact List.mem_filter
  change v ∈ (dropKeys P m).lookup k ↔ _
  rw [hf]
  split_ifs with h <;> simp [h]

theorem mem_keys_iff (m : KeyMap κ ν) (k : κ) : k ∈ m.keys ↔ ∃ v, m.lookup k = some v := by
  exact (AList.lookup_isSome (s := m)).symm.trans Option.isSome_iff_exists

/-- The key at which a `range` loop that stops at the first matching value stops. -/
def firstKey (o : RangeOrder κ) (P : ν → Bool) (m : KeyMap κ ν) : Option κ :=
  (o.arrange m.keys).find? (fun k => (m.lookup k).any P)

theorem firstKey_some {o : RangeOrder κ} {P : ν → Bool} {m : KeyMap κ ν} {k : κ}
    (h : firstKey o P m = some k) : ∃ v, m.lookup k = some v ∧ P v = true := by
  have hk := List.find?_some h
  simpa [Option.any_eq_true] using hk

/-- The map a loop builds by inserting each pair in turn: a later pair replaces an earlier one. -/
def ofPairs (ps : List (κ × ν)) : KeyMap κ ν := ps.foldl (fun m p => m.insert p.1 p.2) ∅

theorem lookup_foldl_insert (ps : List (κ × ν)) (m : KeyMap κ ν) (k : κ) :
    (ps.foldl (fun m p => m.insert p.1 p.2) m).lookup k =
      ((ps.reverse.find? (fun p => p.1 = k)).map Prod.snd).or (m.lookup k) := by
  induction ps generalizing m with
  | nil => simp
  | cons p ps ih =>
    rw [List.foldl_cons, ih, lookup_insert_ite, List.reverse_cons, List.find?_append]
    cases h : ps.reverse.find? (fun p => decide (p.1 = k)) with
    | some q => simp
    | none =>
      by_cases hk : k = p.1
      · simp [hk]
      · simp [hk, eq_comm]

theorem mem_keys_ofPairs (ps : List (κ × ν)) (k : κ) :
    k ∈ (ofPairs ps).keys ↔ ∃ v, (k, v) ∈ ps := by
  rw [mem_keys_iff, ofPairs]
  simp only [lookup_foldl_insert, AList.lookup_empty, Option.or_none, Option.map_eq_some_iff]
  constructor
  · rintro ⟨v, q, hq, rfl⟩
    have hk : q.1 = k := by simpa using List.find?_some hq
    exact ⟨q.2, hk ▸ List.mem_reverse.mp (List.mem_of_find?_eq_some hq)⟩
  · rintro ⟨v, hv⟩
    cases h : ps.reverse.find? (fun p => decide (p.1 = k)) with
    | some q => exact ⟨q.2, q, rfl, rfl⟩
    | none => simpa using List.find?_eq_none.mp h (k, v) (List.mem_reverse.mpr hv)

end ProtonDrive.KeyedMaps
