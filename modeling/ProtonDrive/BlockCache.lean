import ProtonDrive.DriveApi
import Mathlib.Data.List.Sort
import Mathlib.Algebra.Order.Ring.Int

/-!
# The block cache

`BlockCache` of `blockcache.go`: decrypted blocks in files that are named by link,
revision and block index, dated by their last use, and evicted oldest first once their
total size passes the limit. Link and revision ids are single path components.
-/

namespace ProtonDrive.BlockCache
open SlashPaths KeyedMaps DriveApi

/-- The place of a file below the root. Without an index it is a whole-file entry of the
old format, which lies where the new format has a directory. -/
structure BlockKey where
  linkID : LinkID
  revisionID : RevisionID
  index : Option ℤ
  deriving DecidableEq, Repr

structure CacheFile where
  data : Bytes
  mtime : ℤ
  deriving DecidableEq, Repr

def CacheFile.size (f : CacheFile) : ℤ := f.data.length

/-- `target` stands for 90 % of `maxSize`, computed in floating point by the source. -/
structure Cache where
  maxSize : ℤ
  target : ℤ
  files : KeyMap BlockKey CacheFile

def blockPath (linkID : LinkID) (revisionID : RevisionID) (index : ℤ) : BlockKey :=
  ⟨linkID, revisionID, some index⟩

namespace Cache

/-- The content stored under a key, whatever its date. -/
def dataAt (bc : Cache) (k : BlockKey) : Option Bytes := (bc.files.lookup k).map CacheFile.data

def invalidateLink (bc : Cache) (linkID : LinkID) : Cache :=
  { bc with files := dropKeys (fun k => k.linkID == linkID) bc.files }

/-- A hit updates the modification time; a file that cannot be read is a miss. -/
def getBlock (bc : Cache) (now : ℤ) (disk : DiskOutcome) (linkID : LinkID)
    (revisionID : RevisionID) (index : ℤ) : Option Bytes × Cache :=
  let k := blockPath linkID revisionID index
  match disk, bc.files.lookup k with
  | .done, some f => (some f.data, { bc with files := bc.files.insert k ⟨f.data, now⟩ })
  | _, _ => (none, bc)

def totalSize (files : List (BlockKey × CacheFile)) : ℤ := (files.map (fun f => f.2.size)).sum

/-- Remove files from the front until the total is down to the target; a file that cannot be
removed is passed over. -/
def evictLoop (target : ℤ) (stuck : BlockKey → Bool) :
    List (BlockKey × CacheFile) → ℤ → KeyMap BlockKey CacheFile → KeyMap BlockKey CacheFile
  | [], _, m => m
  | (k, f) :: fs, total, m =>
    if total ≤ target then m
    else if stuck k then evictLoop target stuck fs total m
    else evictLoop target stuck fs (total - f.size) (m.erase k)

/-- The files in the order of the walk. -/
def walk (bc : Cache) (order : RangeOrder BlockKey) : List (BlockKey × CacheFile) :=
  (order.arrange bc.files.keys).filterMap (fun k => (bc.files.lookup k).map (fun f => (k, f)))

def evictIfNeeded (bc : Cache) (order : RangeOrder BlockKey) (stuck : BlockKey → Bool) : Cache :=
  let files := bc.walk order
  if totalSize files ≤ bc.maxSize then bc
  else
    let sorted := files.mergeSort (fun a b => a.2.mtime ≤ b.2.mtime)
    { bc with files := evictLoop bc.target stuck sorted (totalSize files) bc.files }

/-- Store one block; `false` is an error. A whole-file entry in the way is removed first. -/
def putBlock (bc : Cache) (now : ℤ) (disk : DiskOutcome) (order : RangeOrder BlockKey)
    (stuck : BlockKey → Bool) (linkID : LinkID) (revisionID : RevisionID) (index : ℤ)
    (data : Bytes) : Bool × Cache :=
  let k := blockPath linkID revisionID index
  let cleared := bc.files.erase ⟨linkID, revisionID, none⟩
  match disk with
  | .refused => (false, bc)
  | .halted => (false, { bc with files := cleared })
  | .torn n => (false, { bc with files := cleared.insert k ⟨data.take n, now⟩ })
  | .done => (true, evictIfNeeded { bc with files := cleared.insert k ⟨data, now⟩ } order stuck)

theorem getBlock_some {bc bc' : Cache} {now : ℤ} {disk : DiskOutcome} {l : LinkID}
    {r : RevisionID} {i : ℤ} {d : Bytes} (h : bc.getBlock now disk l r i = (some d, bc')) :
    bc.dataAt (blockPath l r i) = some d := by
  simp only [getBlock] at h
  split at h
  · rename_i f hf
    cases h
    simp [dataAt, hf]
  · cases h

/-- Reading changes dates only. -/
theorem dataAt_getBlock (bc : Cache) (now : ℤ) (disk : DiskOutcome) (l : LinkID)
    (r : RevisionID) (i : ℤ) (k : BlockKey) :
    (bc.getBlock now disk l r i).2.dataAt k = bc.dataAt k := by
  simp only [getBlock]
  split
  · rename_i f hf
    simp only [dataAt, lookup_insert_ite]
    split_ifs with hk
    · subst hk; simp [hf]
    · rfl
  · rfl

theorem evictLoop_lookup (target : ℤ) (stuck : BlockKey → Bool)
    (fs : List (BlockKey × CacheFile)) (total : ℤ) (m : KeyMap BlockKey CacheFile)
    {k : BlockKey} {f : CacheFile}
    (h : (evictLoop target stuck fs total m).lookup k = some f) : m.lookup k = some f := by
  induction fs generalizing total m with
  | nil => exact h
  | cons g fs ih =>
    rw [evictLoop] at h
    split_ifs at h
    · exact h
    · exact ih _ _ h
    · have h' := ih _ _ h
      rw [lookup_erase_ite] at h'
      split_ifs at h'
      exact h'

/-- Eviction only removes. -/
theorem dataAt_evictIfNeeded {bc : Cache} {order : RangeOrder BlockKey} {stuck : BlockKey → Bool}
    {k : BlockKey} {d : Bytes} (h : (bc.evictIfNeeded order stuck).dataAt k = some d) :
    bc.dataAt k = some d := by
  simp only [evictIfNeeded] at h
  split_ifs at h
  · exact h
  · simp only [dataAt, Option.map_eq_some_iff] at h ⊢
    obtain ⟨f, hf, hd⟩ := h
    exact ⟨f, evictLoop_lookup _ _ _ _ _ hf, hd⟩

/-- What a put can leave under another key was there before. -/
theorem dataAt_putBlock_ne {bc : Cache} {now : ℤ} {disk : DiskOutcome}
    {order : RangeOrder BlockKey} {stuck : BlockKey → Bool} {l : LinkID} {r : RevisionID} {i : ℤ}
    {data d : Bytes} {k : BlockKey} (hk : k ≠ blockPath l r i)
    (h : (bc.putBlock now disk order stuck l r i data).2.dataAt k = some d) :
    bc.dataAt k = some d := by
  have key : ∀ f : CacheFile, (((bc.files.erase ⟨l, r, none⟩).insert (blockPath l r i) f).lookup
      k).map CacheFile.data = some d → bc.dataAt k = some d := by
    intro f hf
    rw [lookup_insert_ite, if_neg hk, lookup_erase_ite] at hf
    split_ifs at hf
    · cases hf
    · exact hf
  cases disk with
  | refused => exact h
  | halted =>
    change ((bc.files.erase ⟨l, r, none⟩).lookup k).map CacheFile.data = some d at h
    rw [lookup_erase_ite] at h
    split_ifs at h
    · cases h
    · exact h
  | torn n => exact key _ h
  | done => exact key _ (dataAt_evictIfNeeded h)

/-- A block stored without a torn write is read back as it was given. -/
theorem dataAt_putBlock_self {bc : Cache} {now : ℤ} {disk : DiskOutcome}
    {order : RangeOrder BlockKey} {stuck : BlockKey → Bool} {l : LinkID} {r : RevisionID} {i : ℤ}
    {data d : Bytes} (hd : ∀ n, disk ≠ .torn n)
    (h : (bc.putBlock now disk order stuck l r i data).2.dataAt (blockPath l r i) = some d) :
    d = data ∨ bc.dataAt (blockPath l r i) = some d := by
  cases disk with
  | refused => exact .inr h
  | halted =>
    change ((bc.files.erase ⟨l, r, none⟩).lookup _).map CacheFile.data = some d at h
    rw [lookup_erase_ite, if_neg (by simp [blockPath])] at h
    exact .inr h
  | torn n => exact absurd rfl (hd n)
  | done =>
    have h' := dataAt_evictIfNeeded h
    simp only [dataAt, lookup_insert_ite, if_true, Option.map_some, Option.some.injEq] at h'
    exact .inl h'.symm

end Cache

end ProtonDrive.BlockCache
