import ProtonDrive.BlockCache
import ProtonDrive.InPlaceFiles
import Mathlib.Logic.Function.Basic

/-!
# The block cache as the file system sees it

The calls of `blockcache.go`, cut into the file operations they make. Calls of several
connections interleave between any two operations, each operation may fail, and the process may
be killed and started again; the disk stays as it is. An open file is told apart from its place,
since a place can be removed or reused while the file is still being written or read.
-/

namespace ProtonDrive.BlockStore
open SlashPaths KeyedMaps DriveApi BlockCache BlockCache.Cache InPlaceFiles

section Places

/-- `strconv.Itoa`. -/
def itoa (i : ℤ) : Path := (Int.repr i).toList

/-- `filepath.Join`: the path of a place, with the components of the root. -/
def place (root : List Path) (k : BlockKey) : Path :=
  render (root ++ ([k.linkID.toList, k.revisionID.toList] ++ (k.index.map itoa).toList))

theorem mem_itoa {i : ℤ} {c : Char} (h : c ∈ itoa i) : c.isDigit = true ∨ c = '-' := by
  cases i with
  | ofNat n =>
    have hd : c ∈ Nat.toDigits 10 n := by simpa [itoa, Int.repr] using h
    exact .inl (Nat.isDigit_of_mem_toDigits (by decide) (by decide) hd)
  | negSucc n =>
    have hd : c = '-' ∨ c ∈ Nat.toDigits 10 (n + 1) := by simpa [itoa, Int.repr] using h
    rcases hd with hd | hd
    · exact .inr hd
    · exact .inl (Nat.isDigit_of_mem_toDigits (by decide) (by decide) hd)

theorem itoa_injective {i j : ℤ} (h : itoa i = itoa j) : i = j := by
  have digits : ∀ {m n : ℕ}, Nat.toDigits 10 m = Nat.toDigits 10 n → m = n := by
    intro m n hmn
    rw [← Nat.ofDigitChars_ten_toDigits (n := m), hmn, Nat.ofDigitChars_ten_toDigits]
  have minus : ∀ {m n : ℕ}, Nat.toDigits 10 m ≠ '-' :: Nat.toDigits 10 n := by
    intro m n hmn
    have hm : '-' ∈ Nat.toDigits 10 m := hmn ▸ List.mem_cons_self
    exact absurd (Nat.isDigit_of_mem_toDigits (by decide) (by decide) hm) (by decide)
  cases i with
  | ofNat m =>
    cases j with
    | ofNat n => exact congrArg Int.ofNat (digits (by simpa [itoa, Int.repr] using h))
    | negSucc n => exact absurd (by simpa [itoa, Int.repr] using h) (minus (m := m) (n := n + 1))
  | negSucc m =>
    cases j with
    | ofNat n =>
      exact absurd (by simpa [itoa, Int.repr] using h.symm) (minus (m := n) (n := m + 1))
    | negSucc n =>
      have hs := digits (m := m + 1) (n := n + 1) (by simpa [itoa, Int.repr] using h)
      rw [Nat.succ.inj hs]

theorem itoa_component (i : ℤ) : IsComponent (itoa i) := by
  have hdot : ∀ c ∈ itoa i, c ≠ '.' ∧ c ≠ '/' := by
    intro c hc
    constructor
    · intro he
      subst he
      simpa using mem_itoa hc
    · intro he
      subst he
      simpa using mem_itoa hc
  refine ⟨?_, fun hs => (hdot _ hs).2 rfl, fun hd => ?_, fun hd => ?_⟩
  · cases i with
    | ofNat n => simp [itoa, Int.repr, Nat.toDigits_ne_nil]
    | negSucc n => simp [itoa, Int.repr]
  · exact (hdot '.' (by rw [hd]; simp)).1 rfl
  · exact (hdot '.' (by rw [hd]; simp)).1 rfl

/-- With ids that are single path components, different keys lie at different places. -/
theorem place_injective {root : List Path} {k k' : BlockKey} (hroot : ∀ e ∈ root, IsComponent e)
    (hk : IsComponent k.linkID.toList ∧ IsComponent k.revisionID.toList)
    (hk' : IsComponent k'.linkID.toList ∧ IsComponent k'.revisionID.toList)
    (h : place root k = place root k') : k = k' := by
  have components : ∀ b : BlockKey,
      IsComponent b.linkID.toList ∧ IsComponent b.revisionID.toList →
      ∀ e ∈ root ++ ([b.linkID.toList, b.revisionID.toList] ++ (b.index.map itoa).toList),
        IsComponent e := by
    intro b hb e he
    simp only [List.mem_append, List.mem_cons, List.not_mem_nil, or_false, Option.mem_toList,
      Option.map_eq_some_iff] at he
    rcases he with he | (rfl | rfl) | ⟨i, -, rfl⟩
    · exact hroot e he
    · exact hb.1
    · exact hb.2
    · exact itoa_component i
  have heq := List.append_cancel_left (render_injective (components k hk) (components k' hk') h)
  obtain ⟨l, r, i⟩ := k
  obtain ⟨l', r', i'⟩ := k'
  simp only [List.cons_append, List.nil_append, List.cons.injEq, String.toList_inj] at heq
  obtain ⟨rfl, rfl, hi⟩ := heq
  cases i with
  | none => simp_all
  | some i =>
    cases i' with
    | none => simp_all
    | some i' =>
      have hij : i = i' := itoa_injective (by simpa using hi)
      rw [hij]
end Places

/-- A file with its date. Its history is for statements only: no operation depends on it. -/
structure Inode where
  file : File UInt8 ℕ
  mtime : ℤ

/-- The directories of revisions, and the files that lie below the root. -/
structure Disk where
  inodes : ℕ → Inode
  created : ℕ
  dirs : LinkID × RevisionID → Bool
  files : KeyMap BlockKey ℕ

/-- The place of the revision directory, where the old format had a file. -/
def revDir (k : BlockKey) : BlockKey := ⟨k.linkID, k.revisionID, none⟩

namespace Disk

/-- No block of the revision is left. -/
def Empty (d : Disk) (k : BlockKey) : Prop :=
  ∀ b ∈ d.files.keys, revDir b = revDir k → b.index = none

instance (d : Disk) (k : BlockKey) : Decidable (d.Empty k) :=
  inferInstanceAs (Decidable (∀ b ∈ d.files.keys, revDir b = revDir k → b.index = none))

/-- `os.Remove`: a file, or an empty directory. -/
def remove (d : Disk) (k : BlockKey) : Option Disk :=
  if (d.files.lookup k).isSome then some { d with files := d.files.erase k }
  else if k.index = none ∧ d.dirs (k.linkID, k.revisionID) = true ∧ d.Empty k then
    some { d with dirs := Function.update d.dirs (k.linkID, k.revisionID) false }
  else none

/-- `os.MkdirAll`: a file in the way is an error. -/
def mkdirAll (d : Disk) (k : BlockKey) : Option Disk :=
  if (d.files.lookup (revDir k)).isSome then none
  else some { d with dirs := Function.update d.dirs (k.linkID, k.revisionID) true }

/-- The open of `os.WriteFile`: a file at the place is truncated, else one is created. -/
def create (d : Disk) (now : ℤ) (k : BlockKey) (serial : ℕ) (data : Bytes) :
    Option (ℕ × Disk) :=
  if d.dirs (k.linkID, k.revisionID) = true then
    match d.files.lookup k with
    | some ino =>
      some (ino, { d with inodes := Function.update d.inodes ino ⟨.made serial data, now⟩ })
    | none =>
      some (d.created, { d with
        inodes := Function.update d.inodes d.created ⟨.made serial data, now⟩
        created := d.created + 1
        files := d.files.insert k d.created })
  else none

/-- Write the next `n` bytes of the data into the open file. -/
def write (d : Disk) (now : ℤ) (ino serial : ℕ) (data : Bytes) (offset n : ℕ) : Disk :=
  { d with
    inodes := Function.update d.inodes ino
      ⟨(d.inodes ino).file.write 0 serial data offset n, now⟩ }

/-- `os.Chtimes` on a place. -/
def chtimes (d : Disk) (now : ℤ) (k : BlockKey) : Disk :=
  match d.files.lookup k with
  | some ino =>
    { d with inodes := Function.update d.inodes ino ⟨(d.inodes ino).file, now⟩ }
  | none => d

/-- What the walk of `evictIfNeeded` notes down of a file. -/
def cacheFile (d : Disk) (ino : ℕ) : CacheFile :=
  ⟨(d.inodes ino).file.content, (d.inodes ino).mtime⟩

end Disk

/-- The operation of `PutBlock` that is next. -/
inductive PutPhase
  | stat
  | remove
  | mkdirAll
  | create
  | write (ino offset : ℕ)
  | lock
  | walk (files : List (BlockKey × CacheFile))
  | evict (files : List (BlockKey × CacheFile)) (total : ℤ)
  | prune (k : BlockKey) (files : List (BlockKey × CacheFile)) (total : ℤ)

/-- The phases in which a failing operation makes `PutBlock` return its error. -/
def PutPhase.Fallible : PutPhase → Prop
  | .remove | .mkdirAll | .create | .write _ _ => True
  | _ => False

/-- The operation of `GetBlock` that is next. -/
inductive GetPhase
  | open
  | read (ino : ℕ)
  | chtimes

/-- A call that has not returned; a put carries its number. -/
inductive Task
  | putBlock (serial : ℕ) (k : BlockKey) (data : Bytes) (phase : PutPhase)
  | getBlock (k : BlockKey) (phase : GetPhase)
  | invalidateLink (linkID : LinkID)

/-- The calls of the running process and the disk, with what was passed to `PutBlock` and what
was returned by `GetBlock` so far. -/
structure Store (T : Type) where
  maxSize : ℤ
  target : ℤ
  disk : Disk
  tasks : T → Option Task
  mu : Option T
  puts : List (BlockKey × Bytes)
  hits : List (BlockKey × Bytes)

variable {T : Type} [DecidableEq T]

namespace Store

def setTask (s : Store T) (t : T) (task : Option Task) : Store T :=
  { s with tasks := Function.update s.tasks t task }

def setDisk (s : Store T) (d : Disk) : Store T := { s with disk := d }

/-- A call of `PutBlock` is numbered. -/
def startPut (s : Store T) (t : T) (k : BlockKey) (data : Bytes) : Store T :=
  { s.setTask t (some (.putBlock s.puts.length k data .stat)) with
    puts := s.puts ++ [(k, data)] }

/-- The content of the open file is returned once its date is set. -/
def readFile (s : Store T) (t : T) (k : BlockKey) (ino : ℕ) : Store T :=
  { s.setTask t (some (.getBlock k .chtimes)) with
    hits := s.hits ++ [(k, (s.disk.inodes ino).file.content)] }

def acquire (s : Store T) (t : T) (task : Task) : Store T :=
  { s.setTask t (some task) with mu := some t }

def release (s : Store T) (t : T) : Store T := { s.setTask t none with mu := none }

/-- Every call is lost, and a lock with it. -/
def kill (s : Store T) : Store T := { s with tasks := fun _ => none, mu := none }

end Store

/-- One operation other than the read of a block, or its failure. -/
inductive Step : Store T → Store T → Prop
  | putBlock {s : Store T} {t : T} (l : LinkID) (r : RevisionID) (i : ℤ) (data : Bytes)
      (ht : s.tasks t = none) : Step s (s.startPut t (blockPath l r i) data)
  | statFile {s : Store T} {t : T} {n : ℕ} {k : BlockKey} {data : Bytes}
      (ht : s.tasks t = some (.putBlock n k data .stat))
      (hf : (s.disk.files.lookup (revDir k)).isSome) :
      Step s (s.setTask t (some (.putBlock n k data .remove)))
  | statOther {s : Store T} {t : T} {n : ℕ} {k : BlockKey} {data : Bytes}
      (ht : s.tasks t = some (.putBlock n k data .stat)) :
      Step s (s.setTask t (some (.putBlock n k data .mkdirAll)))
  | remove {s : Store T} {t : T} {n : ℕ} {k : BlockKey} {data : Bytes} {d : Disk}
      (ht : s.tasks t = some (.putBlock n k data .remove))
      (hd : s.disk.remove (revDir k) = some d) :
      Step s ((s.setDisk d).setTask t (some (.putBlock n k data .mkdirAll)))
  | mkdirAll {s : Store T} {t : T} {n : ℕ} {k : BlockKey} {data : Bytes} {d : Disk}
      (ht : s.tasks t = some (.putBlock n k data .mkdirAll))
      (hd : s.disk.mkdirAll k = some d) :
      Step s ((s.setDisk d).setTask t (some (.putBlock n k data .create)))
  | create {s : Store T} {t : T} {n : ℕ} {k : BlockKey} {data : Bytes} {ino : ℕ} {d : Disk}
      (now : ℤ) (ht : s.tasks t = some (.putBlock n k data .create))
      (hd : s.disk.create now k n data = some (ino, d)) :
      Step s ((s.setDisk d).setTask t (some (.putBlock n k data (.write ino 0))))
  | write {s : Store T} {t : T} {n : ℕ} {k : BlockKey} {data : Bytes} {ino offset : ℕ}
      (now : ℤ) (m : ℕ) (ht : s.tasks t = some (.putBlock n k data (.write ino offset)))
      (hm : 0 < m) (hn : offset + m ≤ data.length) :
      Step s ((s.setDisk (s.disk.write now ino n data offset m)).setTask t
        (some (.putBlock n k data (.write ino (offset + m)))))
  | close {s : Store T} {t : T} {n : ℕ} {k : BlockKey} {data : Bytes} {ino : ℕ}
      (ht : s.tasks t = some (.putBlock n k data (.write ino data.length))) :
      Step s (s.setTask t (some (.putBlock n k data .lock)))
  | putFails {s : Store T} {t : T} {n : ℕ} {k : BlockKey} {data : Bytes} {phase : PutPhase}
      (ht : s.tasks t = some (.putBlock n k data phase)) (hp : phase.Fallible) :
      Step s (s.setTask t none)
  | lock {s : Store T} {t : T} {n : ℕ} {k : BlockKey} {data : Bytes}
      (ht : s.tasks t = some (.putBlock n k data .lock)) (hm : s.mu = none) :
      Step s (s.acquire t (.putBlock n k data (.walk [])))
  | visit {s : Store T} {t : T} {n ino : ℕ} {k b : BlockKey} {data : Bytes}
      {files : List (BlockKey × CacheFile)}
      (ht : s.tasks t = some (.putBlock n k data (.walk files)))
      (hf : s.disk.files.lookup b = some ino) :
      Step s (s.setTask t (some (.putBlock n k data
        (.walk (files ++ [(b, s.disk.cacheFile ino)])))))
  | fits {s : Store T} {t : T} {n : ℕ} {k : BlockKey} {data : Bytes}
      {files : List (BlockKey × CacheFile)}
      (ht : s.tasks t = some (.putBlock n k data (.walk files)))
      (hs : totalSize files ≤ s.maxSize) : Step s (s.release t)
  | sort {s : Store T} {t : T} {n : ℕ} {k : BlockKey} {data : Bytes}
      {files : List (BlockKey × CacheFile)}
      (ht : s.tasks t = some (.putBlock n k data (.walk files)))
      (hs : s.maxSize < totalSize files) :
      Step s (s.setTask t (some (.putBlock n k data (.evict
        (files.mergeSort fun a b => a.2.mtime ≤ b.2.mtime) (totalSize files)))))
  | evict {s : Store T} {t : T} {n : ℕ} {k b : BlockKey} {data : Bytes} {f : CacheFile}
      {files : List (BlockKey × CacheFile)} {total : ℤ} {d : Disk}
      (ht : s.tasks t = some (.putBlock n k data (.evict ((b, f) :: files) total)))
      (hs : s.target < total) (hd : s.disk.remove b = some d) :
      Step s ((s.setDisk d).setTask t (some (.putBlock n k data
        (.prune b files (total - f.size)))))
  | evictFails {s : Store T} {t : T} {n : ℕ} {k b : BlockKey} {data : Bytes} {f : CacheFile}
      {files : List (BlockKey × CacheFile)} {total : ℤ}
      (ht : s.tasks t = some (.putBlock n k data (.evict ((b, f) :: files) total)))
      (hs : s.target < total) :
      Step s (s.setTask t (some (.putBlock n k data (.evict files total))))
  -- above an entry of the old format lies the directory of the link, which is left out
  | prune {s : Store T} {t : T} {n : ℕ} {k b : BlockKey} {data : Bytes}
      {files : List (BlockKey × CacheFile)} {total : ℤ} {d : Disk}
      (ht : s.tasks t = some (.putBlock n k data (.prune b files total)))
      (hb : b.index ≠ none) (hd : s.disk.remove (revDir b) = some d) :
      Step s ((s.setDisk d).setTask t (some (.putBlock n k data (.evict files total))))
  | pruneFails {s : Store T} {t : T} {n : ℕ} {k b : BlockKey} {data : Bytes}
      {files : List (BlockKey × CacheFile)} {total : ℤ}
      (ht : s.tasks t = some (.putBlock n k data (.prune b files total))) :
      Step s (s.setTask t (some (.putBlock n k data (.evict files total))))
  | evicted {s : Store T} {t : T} {n : ℕ} {k : BlockKey} {data : Bytes}
      {files : List (BlockKey × CacheFile)} {total : ℤ}
      (ht : s.tasks t = some (.putBlock n k data (.evict files total)))
      (hs : files = [] ∨ total ≤ s.target) : Step s (s.release t)
  | getBlock {s : Store T} {t : T} (l : LinkID) (r : RevisionID) (i : ℤ)
      (ht : s.tasks t = none) : Step s (s.setTask t (some (.getBlock (blockPath l r i) .open)))
  | open {s : Store T} {t : T} {k : BlockKey} {ino : ℕ}
      (ht : s.tasks t = some (.getBlock k .open)) (hf : s.disk.files.lookup k = some ino) :
      Step s (s.setTask t (some (.getBlock k (.read ino))))
  | chtimes {s : Store T} {t : T} {k : BlockKey} (now : ℤ)
      (ht : s.tasks t = some (.getBlock k .chtimes)) :
      Step s ((s.setDisk (s.disk.chtimes now k)).setTask t none)
  -- a miss, or a date that cannot be set
  | getFails {s : Store T} {t : T} {k : BlockKey} {phase : GetPhase}
      (ht : s.tasks t = some (.getBlock k phase)) : Step s (s.setTask t none)
  | invalidateLink {s : Store T} {t : T} (l : LinkID) (ht : s.tasks t = none) :
      Step s (s.setTask t (some (.invalidateLink l)))
  | removeAll {s : Store T} {t : T} {l : LinkID} {b : BlockKey} {d : Disk}
      (ht : s.tasks t = some (.invalidateLink l)) (hb : b.linkID = l)
      (hd : s.disk.remove b = some d) : Step s (s.setDisk d)
  -- done, or given up: the error is ignored
  | invalidated {s : Store T} {t : T} {l : LinkID}
      (ht : s.tasks t = some (.invalidateLink l)) : Step s (s.setTask t none)
  | kill {s : Store T} : Step s s.kill

/-- A cache directory as a first process finds it: it may hold entries of the old format. -/
structure Store.Pristine (s : Store T) : Prop where
  tasks : ∀ t, s.tasks t = none
  puts : s.puts = []
  hits : s.hits = []
  unmade : ∀ ino, (s.disk.inodes ino).file.maker = none
  old : ∀ k ino, s.disk.files.lookup k = some ino → k.index = none ∧ ino < s.disk.created

/-- The stores of all runs in which every read finds a file that meets `ok`. -/
inductive Reached (ok : Inode → Prop) : Store T → Prop
  | start {s : Store T} (h : s.Pristine) : Reached ok s
  | step {s s' : Store T} (hr : Reached ok s) (h : Step s s') : Reached ok s'
  | read {s : Store T} {t : T} {k : BlockKey} {ino : ℕ} (hr : Reached ok s)
      (ht : s.tasks t = some (.getBlock k (.read ino))) (hok : ok (s.disk.inodes ino)) :
      Reached ok (s.readFile t k ino)

/-- The put that truncated the file last has written all its data, and since then no put of
other data has written into it. -/
def Inode.Settled (i : Inode) : Prop := i.file.Settled

/-- Every block that was returned was passed to `PutBlock`, as a whole and for that key. -/
def Store.Intact (s : Store T) : Prop := ∀ b ∈ s.hits, b ∈ s.puts

end ProtonDrive.BlockStore
