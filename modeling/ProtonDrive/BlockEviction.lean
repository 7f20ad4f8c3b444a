import ProtonDrive.BlockCache
import ProtonDrive.Shedding

/-!
# The block cache is a bounded LRU

Runs of puts, gets and invalidations by one thread, on a disk that works and a clock that
never stands still. Beside the cache a ledger records when each file was last put or hit,
and the dates of the files are shown to agree with it.
-/

namespace ProtonDrive.BlockEviction
open KeyedMaps DriveApi BlockCache BlockCache.Cache Shedding

inductive Access
  | put (linkID : LinkID) (revisionID : RevisionID) (index : ℤ) (data : Bytes)
  | get (linkID : LinkID) (revisionID : RevisionID) (index : ℤ)
  | invalidate (linkID : LinkID)
  deriving Repr

/-- The cache, and the time at which each file was last put or hit. -/
structure Ledger where
  cache : Cache
  accessed : BlockKey → Option ℤ

namespace Ledger

def touch (s : Ledger) (k : BlockKey) (now : ℤ) : BlockKey → Option ℤ :=
  Function.update s.accessed k (some now)

def apply (order : RangeOrder BlockKey) (s : Ledger) (now : ℤ) : Access → Ledger
  | .put l r i data =>
    ⟨(s.cache.putBlock now .done order (fun _ => false) l r i data).2,
      s.touch (blockPath l r i) now⟩
  | .get l r i =>
    match s.cache.getBlock now .done l r i with
    | (some _, bc) => ⟨bc, s.touch (blockPath l r i) now⟩
    | (none, bc) => ⟨bc, s.accessed⟩
  | .invalidate l => ⟨s.cache.invalidateLink l, s.accessed⟩

/-- What a file is dated is when it was last accessed, no two accesses are at one time and
none is in the future. -/
structure Dated (s : Ledger) (now : ℤ) : Prop where
  mtime : ∀ k f, s.cache.files.lookup k = some f → s.accessed k = some f.mtime
  distinct : ∀ k₁ k₂ t, s.accessed k₁ = some t → s.accessed k₂ = some t → k₁ = k₂
  past : ∀ k t, s.accessed k = some t → t ≤ now

end Ledger

/-- The cache as a process finds it, its files dated apart by earlier runs. -/
def found (bc : Cache) : Ledger := ⟨bc, fun k => (bc.files.lookup k).map CacheFile.mtime⟩

/-- The states of a cache of a given size, with the time of the last access. -/
inductive Reached (maxSize target : ℤ) : Ledger → ℤ → Prop
  | start (files : KeyMap BlockKey CacheFile) (now : ℤ)
      (distinct : ∀ k₁ k₂ f₁ f₂, files.lookup k₁ = some f₁ → files.lookup k₂ = some f₂ →
        f₁.mtime = f₂.mtime → k₁ = k₂)
      (past : ∀ k f, files.lookup k = some f → f.mtime ≤ now) :
      Reached maxSize target (found ⟨maxSize, target, files⟩) now
  | step {s : Ledger} {now : ℤ} (order : RangeOrder BlockKey) {next : ℤ} (a : Access) :
      Reached maxSize target s now → now < next →
      Reached maxSize target (s.apply order next a) next

/-- The total size of the files, as the walk adds it up. -/
def total (bc : Cache) : ℤ := totalSize (bc.walk default)

/-- The cache between the write of a put and its eviction pass. -/
def written (bc : Cache) (now : ℤ) (l : LinkID) (r : RevisionID) (i : ℤ) (data : Bytes) : Cache :=
  { bc with files := (bc.files.erase ⟨l, r, none⟩).insert (blockPath l r i) ⟨data, now⟩ }

/-- A file went from one cache to the next. -/
def Lost (bc bc' : Cache) (k : BlockKey) (f : CacheFile) : Prop :=
  bc.files.lookup k = some f ∧ bc'.files.lookup k = none

/-- What a put does: `w` is the cache after the write, `s'` the ledger after the eviction. -/
structure PutEvicts (w : Cache) (s' : Ledger) (k : BlockKey) (data : Bytes) : Prop where
  bounded : total s'.cache ≤ w.maxSize
  /-- Nothing goes unless the limit is passed, and then the least recently used. -/
  full : ∀ k₁ f₁, Lost w s'.cache k₁ f₁ → w.maxSize < total w
  oldest : ∀ k₁ f₁ k₂ f₂, Lost w s'.cache k₁ f₁ → s'.cache.files.lookup k₂ = some f₂ →
    ∃ t₁ t₂, s'.accessed k₁ = some t₁ ∧ s'.accessed k₂ = some t₂ ∧ t₁ < t₂
  /-- An eviction reaches the target, and putting the last removed file back passes it. -/
  reaches : w.maxSize < total w → total s'.cache ≤ w.target
  stops : ∀ k₁ f₁ t₁, Lost w s'.cache k₁ f₁ → s'.accessed k₁ = some t₁ →
    (∀ k₂ f₂ t₂, Lost w s'.cache k₂ f₂ → s'.accessed k₂ = some t₂ → t₂ ≤ t₁) →
    w.target < total s'.cache + f₁.size
  kept : (data.length : ℤ) ≤ w.target → s'.cache.dataAt k = some data
  unchanged : ∀ k₁ f₁, s'.cache.files.lookup k₁ = some f₁ → w.files.lookup k₁ = some f₁

/-- A block is there after an access with the content it had. -/
def Survives (s s' : Ledger) (k : BlockKey) : Prop :=
  ∀ d, s.cache.dataAt k = some d → s'.cache.dataAt k = some d

/-- The behaviour of a bounded cache that evicts the least recently used blocks. -/
def BoundedLru (s s' : Ledger) (now : ℤ) : Access → Prop
  | .put l r i data =>
    let k := blockPath l r i
    let w := written s.cache now l r i data
    PutEvicts w s' k data ∧
      (∀ k₁, k₁ ≠ k → k₁.index ≠ none → (∀ f, ¬ Lost w s'.cache k₁ f) → Survives s s' k₁) ∧
      ((∀ f, ¬ Lost w s'.cache k f) → s'.cache.dataAt k = some data)
  | .get _ _ _ => ∀ k, Survives s s' k
  | .invalidate l => ∀ k, k.linkID ≠ l → Survives s s' k

theorem mem_walk (bc : Cache) (order : RangeOrder BlockKey) (k : BlockKey) (f : CacheFile) :
    (k, f) ∈ bc.walk order ↔ bc.files.lookup k = some f := by
  simp only [walk, List.mem_filterMap, RangeOrder.mem_arrange, mem_keys_iff,
    Option.map_eq_some_iff, Prod.mk.injEq]
  constructor
  · rintro ⟨k', -, f', hf, rfl, rfl⟩
    exact hf
  · intro hf
    exact ⟨k, ⟨f, hf⟩, f, hf, rfl, rfl⟩

theorem nodup_walk (bc : Cache) (order : RangeOrder BlockKey) : (bc.walk order).Nodup := by
  apply List.Nodup.filterMap _ (order.nodup_arrange bc.files.keys_nodup)
  intro k k' p hk hk'
  simp only [Option.mem_def, Option.map_eq_some_iff] at hk hk'
  obtain ⟨f, -, rfl⟩ := hk
  obtain ⟨f', -, he⟩ := hk'
  exact (Prod.mk.inj he).1.symm

/-- Any list of the files without repetition adds up to the total. -/
theorem total_eq_weight {bc : Cache} {files : List (BlockKey × CacheFile)} (hn : files.Nodup)
    (hm : ∀ k f, (k, f) ∈ files ↔ bc.files.lookup k = some f) :
    total bc = weight (fun f => f.2.size) files := by
  apply weight_perm (fun f : BlockKey × CacheFile => f.2.size)
  refine (List.perm_ext_iff_of_nodup (nodup_walk bc default) hn).mpr ?_
  rintro ⟨k, f⟩
  rw [mem_walk, hm]

theorem evictLoop_eq (target : ℤ) (files : List (BlockKey × CacheFile))
    (m : KeyMap BlockKey CacheFile) :
    evictLoop target (fun _ => false) files (totalSize files) m =
      (shed (fun f => f.2.size) target files).foldl (fun m f => m.erase f.1) m := by
  induction files generalizing m with
  | nil => rfl
  | cons g files ih =>
    have hw : totalSize (g :: files) = g.2.size + totalSize files := by simp [totalSize]
    have hs : weight (fun f => f.2.size) (g :: files) = totalSize (g :: files) := rfl
    simp only [evictLoop, shed, hs, Bool.false_eq_true, if_false]
    split_ifs with h
    · rfl
    · rw [List.foldl_cons, ← ih, hw, add_sub_cancel_left]

theorem lookup_foldl_erase (files : List (BlockKey × CacheFile)) (m : KeyMap BlockKey CacheFile)
    (k : BlockKey) :
    (files.foldl (fun m f => m.erase f.1) m).lookup k =
      if k ∈ files.map Prod.fst then none else m.lookup k := by
  induction files generalizing m with
  | nil => simp
  | cons g files ih =>
    rw [List.foldl_cons, ih, lookup_erase_ite, List.map_cons]
    by_cases hk : k = g.1
    · simp [hk]
    · simp only [List.mem_cons, hk, false_or, if_false]

section Pass

variable (w : Cache) (order : RangeOrder BlockKey)

/-- The files as the eviction pass visits them, and the ones it removes and keeps. -/
def ranked : List (BlockKey × CacheFile) :=
  (w.walk order).mergeSort (fun a b => a.2.mtime ≤ b.2.mtime)

def gone : List (BlockKey × CacheFile) := shed (fun f => f.2.size) w.target (ranked w order)

def stay : List (BlockKey × CacheFile) :=
  Shedding.kept (fun f => f.2.size) w.target (ranked w order)

theorem gone_append_stay : gone w order ++ stay w order = ranked w order :=
  shed_append_kept _ _ _

theorem ranked_perm : (ranked w order).Perm (w.walk order) := List.mergeSort_perm _ _

theorem ranked_sorted : (ranked w order).Pairwise (fun a b => a.2.mtime ≤ b.2.mtime) := by
  have h : ((w.walk order).mergeSort (fun a b => a.2.mtime ≤ b.2.mtime)).Pairwise
      (fun a b => decide (a.2.mtime ≤ b.2.mtime) = true) := by
    apply List.pairwise_mergeSort
    · simp only [decide_eq_true_eq]
      intro a b c
      exact le_trans
    · simp only [Bool.or_eq_true, decide_eq_true_eq]
      intro a b
      exact le_total _ _
  simpa [ranked] using h

theorem mem_gone_or_stay (k : BlockKey) (f : CacheFile) :
    (k, f) ∈ gone w order ∨ (k, f) ∈ stay w order ↔ w.files.lookup k = some f := by
  rw [← List.mem_append, gone_append_stay, (ranked_perm w order).mem_iff, mem_walk]

theorem nodup_ranked : (gone w order ++ stay w order).Nodup := by
  rw [gone_append_stay]
  exact (ranked_perm w order).nodup_iff.mpr (nodup_walk w order)

variable {w order}

theorem not_mem_stay_of_gone {k : BlockKey} {f f' : CacheFile} (h : (k, f) ∈ gone w order) :
    (k, f') ∉ stay w order := by
  intro h'
  have hf := (mem_gone_or_stay w order k f).mp (.inl h)
  have hf' := (mem_gone_or_stay w order k f').mp (.inr h')
  obtain rfl : f = f' := Option.some.inj (hf.symm.trans hf')
  exact (List.disjoint_of_nodup_append (nodup_ranked w order)) h h'

theorem evictIfNeeded_of_le (h : total w ≤ w.maxSize) :
    w.evictIfNeeded order (fun _ => false) = w := by
  have hw : totalSize (w.walk order) = total w :=
    (total_eq_weight (nodup_walk w order) (mem_walk w order)).symm
  simp only [evictIfNeeded, hw, if_pos h]

/-- What an eviction pass over a full cache leaves is what stays of the sorted files. -/
theorem lookup_evictIfNeeded (h : w.maxSize < total w) (k : BlockKey) (f : CacheFile) :
    (w.evictIfNeeded order (fun _ => false)).files.lookup k = some f ↔
      (k, f) ∈ stay w order := by
  have hw : totalSize (w.walk order) = total w :=
    (total_eq_weight (nodup_walk w order) (mem_walk w order)).symm
  have hr : totalSize (w.walk order) = totalSize (ranked w order) :=
    (weight_perm (fun f : BlockKey × CacheFile => f.2.size) (ranked_perm w order)).symm
  have hfiles : (w.evictIfNeeded order (fun _ => false)).files =
      (gone w order).foldl (fun m f => m.erase f.1) w.files := by
    simp only [evictIfNeeded, if_neg (not_le.mpr (hw ▸ h))]
    rw [hr]
    exact evictLoop_eq w.target (ranked w order) w.files
  rw [hfiles, lookup_foldl_erase]
  split_ifs with hk
  · simp only [List.mem_map, Prod.exists, exists_and_right, exists_eq_right] at hk
    obtain ⟨g, hg⟩ := hk
    constructor
    · intro hf
      cases hf
    · exact fun hs => absurd hs (not_mem_stay_of_gone hg)
  · rw [← mem_gone_or_stay w order]
    constructor
    · rintro (hg | hs)
      · exact absurd (List.mem_map_of_mem (f := Prod.fst) hg) hk
      · exact hs
    · exact .inr

theorem lost_iff_gone (h : w.maxSize < total w) (k : BlockKey) (f : CacheFile) :
    Lost w (w.evictIfNeeded order (fun _ => false)) k f ↔ (k, f) ∈ gone w order := by
  constructor
  · rintro ⟨hf, hn⟩
    rcases (mem_gone_or_stay w order k f).mpr hf with hg | hs
    · exact hg
    · rw [(lookup_evictIfNeeded h k f).mpr hs] at hn
      cases hn
  · intro hg
    refine ⟨(mem_gone_or_stay w order k f).mp (.inl hg), ?_⟩
    rw [Option.eq_none_iff_forall_ne_some]
    intro f' hf'
    exact not_mem_stay_of_gone hg ((lookup_evictIfNeeded h k f').mp hf')

theorem total_evictIfNeeded (h : w.maxSize < total w) :
    total (w.evictIfNeeded order (fun _ => false)) =
      weight (fun f => f.2.size) (stay w order) := by
  refine total_eq_weight (List.Nodup.of_append_right (nodup_ranked w order)) ?_
  intro k f
  exact (lookup_evictIfNeeded h k f).symm

end Pass

namespace Ledger.Dated

variable {s : Ledger} {now next : ℤ} {bc : Cache} {k : BlockKey}

/-- Files may go at any time. -/
theorem mono (h : s.Dated now)
    (hbc : ∀ k f, bc.files.lookup k = some f → s.cache.files.lookup k = some f) :
    Dated ⟨bc, s.accessed⟩ now :=
  ⟨fun k f hf => h.mtime k f (hbc k f hf), h.distinct, h.past⟩

/-- An access dates one file with the present time. -/
theorem touch (h : s.Dated now) (hnow : now < next)
    (hbc : ∀ k' f, bc.files.lookup k' = some f →
      k' = k ∧ f.mtime = next ∨ k' ≠ k ∧ s.cache.files.lookup k' = some f) :
    Dated ⟨bc, s.touch k next⟩ next := by
  have old : ∀ k' t, k' ≠ k → s.touch k next k' = some t → s.accessed k' = some t := by
    intro k' t hk ht
    simpa [Ledger.touch, Function.update_of_ne hk] using ht
  have new : ∀ t, s.touch k next k = some t → next = t := by
    intro t ht
    simpa [Ledger.touch] using ht
  refine ⟨?_, ?_, ?_⟩
  · intro k' f hf
    rcases hbc k' f hf with ⟨rfl, ht⟩ | ⟨hk, hf'⟩
    · simp [Ledger.touch, ht]
    · simpa [Ledger.touch, Function.update_of_ne hk] using h.mtime k' f hf'
  · intro k₁ k₂ t h₁ h₂
    by_cases hk₁ : k₁ = k <;> by_cases hk₂ : k₂ = k
    · rw [hk₁, hk₂]
    · have hp := h.past k₂ t (old k₂ t hk₂ h₂)
      have hn := new t (hk₁ ▸ h₁)
      omega
    · have hp := h.past k₁ t (old k₁ t hk₁ h₁)
      have hn := new t (hk₂ ▸ h₂)
      omega
    · exact h.distinct k₁ k₂ t (old k₁ t hk₁ h₁) (old k₂ t hk₂ h₂)
  · intro k' t ht
    by_cases hk : k' = k
    · exact (new t (hk ▸ ht)).ge
    · exact (h.past k' t (old k' t hk ht)).trans hnow.le

end Ledger.Dated

theorem lookup_written (bc : Cache) (now : ℤ) (l : LinkID) (r : RevisionID) (i : ℤ) (data : Bytes)
    (k : BlockKey) : (written bc now l r i data).files.lookup k =
      if k = blockPath l r i then some ⟨data, now⟩
      else if k = ⟨l, r, none⟩ then none else bc.files.lookup k := by
  simp only [written, lookup_insert_ite, lookup_erase_ite]

theorem dated_written {s : Ledger} {now next : ℤ} (h : s.Dated now) (hnow : now < next)
    (l : LinkID) (r : RevisionID) (i : ℤ) (data : Bytes) :
    Ledger.Dated ⟨written s.cache next l r i data, s.touch (blockPath l r i) next⟩ next := by
  apply h.touch hnow
  intro k f hf
  rw [lookup_written] at hf
  split_ifs at hf with hk
  · cases hf
    exact .inl ⟨hk, rfl⟩
  · exact .inr ⟨hk, hf⟩

theorem lookup_of_evictIfNeeded {w : Cache} {order : RangeOrder BlockKey} {k : BlockKey}
    {f : CacheFile} (h : (w.evictIfNeeded order (fun _ => false)).files.lookup k = some f) :
    w.files.lookup k = some f := by
  by_cases hw : total w ≤ w.maxSize
  · rwa [evictIfNeeded_of_le hw] at h
  · exact (mem_gone_or_stay w order k f).mp (.inr ((lookup_evictIfNeeded (not_le.mp hw) k f).mp h))

theorem dated_apply {s : Ledger} {now next : ℤ} (h : s.Dated now) (hnow : now < next)
    (order : RangeOrder BlockKey) (a : Access) : (s.apply order next a).Dated next := by
  cases a with
  | put l r i data =>
    exact (dated_written h hnow l r i data).mono (fun _ _ => lookup_of_evictIfNeeded)
  | get l r i =>
    simp only [Ledger.apply, getBlock]
    cases hf : s.cache.files.lookup (blockPath l r i) with
    | none => exact ⟨h.mtime, h.distinct, fun k t ht => (h.past k t ht).trans hnow.le⟩
    | some f =>
      apply h.touch hnow
      intro k f' hf'
      simp only [lookup_insert_ite] at hf'
      split_ifs at hf' with hk
      · cases hf'
        exact .inl ⟨hk, rfl⟩
      · exact .inr ⟨hk, hf'⟩
  | invalidate l =>
    have hsub : ∀ k f, (s.cache.invalidateLink l).files.lookup k = some f →
        s.cache.files.lookup k = some f := by
      intro k f hf
      simp only [invalidateLink, lookup_dropKeys] at hf
      split_ifs at hf
      exact hf
    have hm := h.mono hsub
    exact ⟨hm.mtime, hm.distinct, fun k t ht => (h.past k t ht).trans hnow.le⟩

section Put

variable {w : Cache} {order : RangeOrder BlockKey} {accessed : BlockKey → Option ℤ} {now : ℤ}

/-- Of a file that goes and one that stays the first was last accessed earlier. -/
theorem gone_before_stay (hd : Ledger.Dated ⟨w, accessed⟩ now) {k₁ k₂ : BlockKey}
    {f₁ f₂ : CacheFile} (h₁ : (k₁, f₁) ∈ gone w order) (h₂ : (k₂, f₂) ∈ stay w order) :
    f₁.mtime < f₂.mtime := by
  have hle : f₁.mtime ≤ f₂.mtime := rel_shed_kept _ _ (ranked_sorted w order) h₁ h₂
  refine lt_of_le_of_ne hle ?_
  intro he
  have a₁ := hd.mtime k₁ f₁ ((mem_gone_or_stay w order _ _).mp (.inl h₁))
  have a₂ := hd.mtime k₂ f₂ ((mem_gone_or_stay w order _ _).mp (.inr h₂))
  obtain rfl := hd.distinct k₁ k₂ f₁.mtime a₁ (he ▸ a₂)
  exact not_mem_stay_of_gone h₁ h₂

/-- A file that goes no earlier than any other that goes is the last to go. -/
theorem last_gone (hd : Ledger.Dated ⟨w, accessed⟩ now) {k : BlockKey} {f : CacheFile}
    (hg : (k, f) ∈ gone w order) (hlast : ∀ k₂ f₂, (k₂, f₂) ∈ gone w order → f₂.mtime ≤ f.mtime) :
    ∃ zs, gone w order = zs ++ [(k, f)] := by
  rcases List.eq_nil_or_concat (gone w order) with hnil | ⟨zs, ⟨k', f'⟩, hz⟩
  · rw [hnil] at hg
    cases hg
  refine ⟨zs, ?_⟩
  rw [List.concat_eq_append] at hz
  have hg' : (k', f') ∈ gone w order := by simp [hz]
  have hle : f.mtime ≤ f'.mtime := by
    rw [hz, List.mem_append, List.mem_singleton] at hg
    rcases hg with hg | hg
    · have hs := ranked_sorted w order
      rw [← gone_append_stay, hz] at hs
      exact (List.pairwise_append.mp (List.pairwise_append.mp hs).1).2.2 _ hg (k', f') (by simp)
    · rw [(Prod.mk.inj hg).2]
  have a := hd.mtime k f ((mem_gone_or_stay w order _ _).mp (.inl hg))
  have a' := hd.mtime k' f' ((mem_gone_or_stay w order _ _).mp (.inl hg'))
  have ht : f'.mtime = f.mtime := le_antisymm (hlast k' f' hg') hle
  obtain rfl := hd.distinct k k' f.mtime a (ht ▸ a')
  have hf := (mem_gone_or_stay w order _ _).mp (.inl hg)
  have hf' := (mem_gone_or_stay w order _ _).mp (.inl hg')
  rw [Option.some.inj (hf.symm.trans hf')]
  exact hz

theorem putEvicts_full (hd : Ledger.Dated ⟨w, accessed⟩ now) (h0 : 0 ≤ w.target)
    (ht : w.target ≤ w.maxSize) (hfull : w.maxSize < total w) {k : BlockKey} {data : Bytes}
    (hk : w.files.lookup k = some ⟨data, now⟩) :
    PutEvicts w ⟨w.evictIfNeeded order (fun _ => false), accessed⟩ k data := by
  have htotal : total (w.evictIfNeeded order (fun _ => false)) ≤ w.target := by
    rw [total_evictIfNeeded hfull]
    exact weight_kept_le _ _ h0 _
  have hstop : ∀ k₁ f₁, (k₁, f₁) ∈ gone w order →
      (∀ k₂ f₂, (k₂, f₂) ∈ gone w order → f₂.mtime ≤ f₁.mtime) →
      w.target < total (w.evictIfNeeded order (fun _ => false)) + f₁.size := by
    intro k₁ f₁ hg hlast
    obtain ⟨zs, hz⟩ := last_gone hd hg hlast
    rw [total_evictIfNeeded hfull, add_comm]
    exact lt_of_shed_concat _ _ hz
  constructor
  case bounded => exact htotal.trans ht
  case full => exact fun _ _ _ => hfull
  case oldest =>
    intro k₁ f₁ k₂ f₂ h₁ h₂
    have hg := (lost_iff_gone hfull k₁ f₁).mp h₁
    have hs := (lookup_evictIfNeeded hfull k₂ f₂).mp h₂
    exact ⟨f₁.mtime, f₂.mtime, hd.mtime k₁ f₁ h₁.1, hd.mtime k₂ f₂ (lookup_of_evictIfNeeded h₂),
      gone_before_stay hd hg hs⟩
  case reaches => exact fun _ => htotal
  case stops =>
    intro k₁ f₁ t₁ h₁ ha hlast
    refine hstop k₁ f₁ ((lost_iff_gone hfull k₁ f₁).mp h₁) ?_
    intro k₂ f₂ hg₂
    have h₂ := (lost_iff_gone hfull k₂ f₂).mpr hg₂
    have hm : some f₁.mtime = some t₁ := (hd.mtime k₁ f₁ h₁.1).symm.trans ha
    rw [Option.some.inj hm]
    exact hlast k₂ f₂ f₂.mtime h₂ (hd.mtime k₂ f₂ h₂.1)
  case kept =>
    intro hsize
    rcases (mem_gone_or_stay w order k _).mpr hk with hg | hs
    · -- the newest file goes last, and it alone does not pass the target
      exfalso
      have hnew : ∀ k₂ f₂, w.files.lookup k₂ = some f₂ → f₂.mtime ≤ now :=
        fun k₂ f₂ hf => hd.past k₂ f₂.mtime (hd.mtime k₂ f₂ hf)
      have hnil : stay w order = [] := by
        rw [List.eq_nil_iff_forall_not_mem]
        rintro ⟨k₂, f₂⟩ hs
        have hlt := gone_before_stay hd hg hs
        have hle := hnew k₂ f₂ ((mem_gone_or_stay w order _ _).mp (.inr hs))
        exact absurd hlt (not_lt.mpr hle)
      have hlt := hstop k _ hg
        (fun k₂ f₂ hg₂ => hnew k₂ f₂ ((mem_gone_or_stay w order _ _).mp (.inl hg₂)))
      rw [total_evictIfNeeded hfull, hnil] at hlt
      simp only [weight, List.map_nil, List.sum_nil, zero_add, CacheFile.size] at hlt
      omega
    · simp [dataAt, (lookup_evictIfNeeded hfull k _).mpr hs]
  case unchanged => exact fun _ _ => lookup_of_evictIfNeeded

theorem putEvicts (hd : Ledger.Dated ⟨w, accessed⟩ now) (h0 : 0 ≤ w.target)
    (ht : w.target ≤ w.maxSize) {k : BlockKey} {data : Bytes}
    (hk : w.files.lookup k = some ⟨data, now⟩) :
    PutEvicts w ⟨w.evictIfNeeded order (fun _ => false), accessed⟩ k data := by
  by_cases hfull : w.maxSize < total w
  · exact putEvicts_full hd h0 ht hfull hk
  have hle := not_lt.mp hfull
  rw [evictIfNeeded_of_le hle]
  have hnone : ∀ k₁ f₁, ¬ Lost w w k₁ f₁ := by
    rintro k₁ f₁ ⟨hf, hn⟩
    rw [hf] at hn
    cases hn
  constructor
  case bounded => exact hle
  case full => exact fun k₁ f₁ h => absurd h (hnone k₁ f₁)
  case oldest => exact fun k₁ f₁ _ _ h _ => absurd h (hnone k₁ f₁)
  case reaches => exact fun h => absurd h hfull
  case stops => exact fun k₁ f₁ _ h _ _ => absurd h (hnone k₁ f₁)
  case kept => simp [dataAt, hk]
  case unchanged => exact fun _ _ => id

end Put

section Runs

variable {maxSize target : ℤ} {s : Ledger} {now : ℤ}

theorem Reached.dated (h : Reached maxSize target s now) : s.Dated now := by
  induction h with
  | start files now distinct past =>
    refine ⟨?_, ?_, ?_⟩
    · intro k f hf
      simpa [found] using ⟨f, hf, rfl⟩
    · intro k₁ k₂ t h₁ h₂
      simp only [found, Option.map_eq_some_iff] at h₁ h₂
      obtain ⟨f₁, hf₁, rfl⟩ := h₁
      obtain ⟨f₂, hf₂, he⟩ := h₂
      exact distinct k₁ k₂ f₁ f₂ hf₁ hf₂ he.symm
    · intro k t ht
      simp only [found, Option.map_eq_some_iff] at ht
      obtain ⟨f, hf, rfl⟩ := ht
      exact past k f hf
  | step order a _ hnow ih => exact dated_apply ih hnow order a

theorem apply_limits (s : Ledger) (order : RangeOrder BlockKey) (now : ℤ) (a : Access) :
    (s.apply order now a).cache.maxSize = s.cache.maxSize ∧
      (s.apply order now a).cache.target = s.cache.target := by
  cases a with
  | put l r i data =>
    simp only [Ledger.apply, putBlock, evictIfNeeded]
    split_ifs <;> exact ⟨rfl, rfl⟩
  | get l r i =>
    simp only [Ledger.apply, getBlock]
    cases s.cache.files.lookup (blockPath l r i) <;> exact ⟨rfl, rfl⟩
  | invalidate l => exact ⟨rfl, rfl⟩

theorem Reached.limits (h : Reached maxSize target s now) :
    s.cache.maxSize = maxSize ∧ s.cache.target = target := by
  induction h with
  | start => exact ⟨rfl, rfl⟩
  | @step s _ order next a _ _ ih =>
    have hl := apply_limits s order next a
    exact ⟨hl.1.trans ih.1, hl.2.trans ih.2⟩

/-- After every access of every run the cache has behaved as a bounded LRU cache. -/
theorem bounded_lru (h0 : 0 ≤ target) (ht : target ≤ maxSize)
    (h : Reached maxSize target s now) {next : ℤ} (hnow : now < next)
    (order : RangeOrder BlockKey) (a : Access) :
    BoundedLru s (s.apply order next a) next a := by
  obtain ⟨hm, htarget⟩ := h.limits
  cases a with
  | put l r i data =>
    have hd := dated_written h.dated hnow l r i data
    have hw : (written s.cache next l r i data).files.lookup (blockPath l r i) =
        some ⟨data, next⟩ := by simp [lookup_written]
    have hp : PutEvicts _ (s.apply order next (.put l r i data)) _ _ :=
      putEvicts hd (htarget ▸ h0) (hm ▸ htarget ▸ ht) hw
    have hkeep : ∀ k f, (written s.cache next l r i data).files.lookup k = some f →
        ¬ Lost (written s.cache next l r i data) (s.apply order next (.put l r i data)).cache k f →
        (s.apply order next (.put l r i data)).cache.dataAt k = some f.data := by
      intro k f hf hl
      cases hf' : (s.apply order next (.put l r i data)).cache.files.lookup k with
      | none => exact absurd ⟨hf, hf'⟩ hl
      | some f' =>
        have he := (hp.unchanged k f' hf').symm.trans hf
        simp [dataAt, hf', Option.some.inj he]
    refine ⟨hp, ?_, fun hl => hkeep _ _ hw (hl _)⟩
    intro k hk hi hl d hdata
    simp only [dataAt, Option.map_eq_some_iff] at hdata
    obtain ⟨f, hf, rfl⟩ := hdata
    refine hkeep k f ?_ (hl f)
    rw [lookup_written, if_neg hk, if_neg, hf]
    rintro rfl
    exact hi rfl
  | get l r i =>
    intro k d hdata
    have hsame := dataAt_getBlock s.cache next .done l r i k
    rw [← hsame] at hdata
    simp only [Ledger.apply]
    cases hg : s.cache.getBlock next .done l r i with
    | mk o bc =>
      rw [hg] at hdata
      cases o <;> exact hdata
  | invalidate l =>
    intro k hk d hdata
    simp only [dataAt, Option.map_eq_some_iff] at hdata ⊢
    obtain ⟨f, hf, rfl⟩ := hdata
    refine ⟨f, ?_, rfl⟩
    simp only [Ledger.apply, invalidateLink, lookup_dropKeys]
    simpa [hk] using hf

end Runs

theorem bounded_lru_two_puts :
    let s := (found ⟨3, 2, ∅⟩).apply default 1 (.put "l" "r" 0 [1, 2])
    BoundedLru s (s.apply default 2 (.put "l" "r" 1 [3, 4])) 2 (.put "l" "r" 1 [3, 4]) := by
  intro s
  have hs : Reached 3 2 s 1 := by
    refine .step default _ (.start ∅ 0 ?_ ?_) (by decide)
    · intro k₁ k₂ f₁ f₂ h
      simp at h
    · intro k f h
      simp at h
  exact bounded_lru (by decide) (by decide) hs (by decide) default _

end ProtonDrive.BlockEviction
