import ProtonDrive.BlockStore

/-!
# What a hit of the block cache returns

A block is written in place, so its file can be read while it is being written, or after the
writer failed. The invariant ties every open file to the puts of its key: as long as no other
data is mixed in, a file is filled as far as the put that truncated it last has written.
-/

namespace ProtonDrive.BlockIntegrity
open KeyedMaps DriveApi BlockCache InPlaceFiles BlockStore

variable {T : Type} {s s' : Store T}

section Quiet

/-- No file is created or changed, apart from dates; places may become free. -/
structure Shrinks (d d' : Disk) : Prop where
  file : ∀ ino, (d'.inodes ino).file = (d.inodes ino).file
  created : d'.created = d.created
  files : ∀ k ino, d'.files.lookup k = some ino → d.files.lookup k = some ino

theorem Shrinks.refl (d : Disk) : Shrinks d d := ⟨fun _ => rfl, rfl, fun _ _ h => h⟩

theorem remove_shrinks {d d' : Disk} {k : BlockKey} (h : d.remove k = some d') :
    Shrinks d d' := by
  simp only [Disk.remove] at h
  split_ifs at h
  · cases h
    refine ⟨fun _ => rfl, rfl, ?_⟩
    intro b ino hb
    rw [lookup_erase_ite] at hb
    split_ifs at hb
    exact hb
  · cases h
    exact ⟨fun _ => rfl, rfl, fun _ _ hb => hb⟩

theorem mkdirAll_shrinks {d d' : Disk} {k : BlockKey} (h : d.mkdirAll k = some d') :
    Shrinks d d' := by
  simp only [Disk.mkdirAll] at h
  split_ifs at h
  cases h
  exact ⟨fun _ => rfl, rfl, fun _ _ hb => hb⟩

theorem chtimes_shrinks (d : Disk) (now : ℤ) (k : BlockKey) : Shrinks d (d.chtimes now k) := by
  simp only [Disk.chtimes]
  cases d.files.lookup k with
  | none => exact .refl d
  | some ino =>
    refine ⟨?_, rfl, fun _ _ hb => hb⟩
    intro i
    dsimp only
    rw [Function.update_apply]
    split_ifs with hi
    · rw [hi]
    · rfl

/-- What a call can be after an operation that opens no file: a put goes on with its key and
data, any other call is for a block. -/
def Follows (before : Option Task) : Option Task → Prop
  | some (.putBlock n k data phase) =>
    (∃ phase', before = some (.putBlock n k data phase')) ∧
      ∀ ino offset, phase ≠ .write ino offset
  | some (.getBlock k phase) => k.index ≠ none ∧ ∀ ino, phase ≠ .read ino
  | _ => True

/-- An operation that opens, writes and starts nothing. -/
structure Quiet (s s' : Store T) : Prop where
  disk : Shrinks s.disk s'.disk
  tasks : ∀ t, s'.tasks t = s.tasks t ∨ Follows (s.tasks t) (s'.tasks t)
  puts : s'.puts = s.puts

variable [DecidableEq T]

theorem quiet_setTask {d : Disk} {t : T} {task : Option Task} (hd : Shrinks s.disk d)
    (hf : Follows (s.tasks t) task) : Quiet s ((s.setDisk d).setTask t task) := by
  refine ⟨hd, ?_, rfl⟩
  intro u
  simp only [Store.setTask, Store.setDisk, Function.update_apply]
  split_ifs with hu
  · exact .inr (hu ▸ hf)
  · exact .inl rfl

theorem quiet_plain {t : T} {task : Option Task} (hf : Follows (s.tasks t) task) :
    Quiet s (s.setTask t task) := quiet_setTask (.refl s.disk) hf

theorem quiet_release (s : Store T) (t : T) : Quiet s (s.release t) :=
  have h : Quiet s (s.setTask t none) := quiet_plain trivial
  ⟨h.disk, h.tasks, h.puts⟩

theorem quiet_acquire {t : T} {task : Task} (hf : Follows (s.tasks t) (some task)) :
    Quiet s (s.acquire t task) :=
  have h := quiet_plain hf
  ⟨h.disk, h.tasks, h.puts⟩

theorem follows_put {n : ℕ} {k : BlockKey} {data : Bytes} {before : Option Task}
    {phase phase' : PutPhase} (ht : before = some (.putBlock n k data phase))
    (hp : ∀ ino offset, phase' ≠ .write ino offset) :
    Follows before (some (.putBlock n k data phase')) := ⟨⟨phase, ht⟩, hp⟩

end Quiet

section Cases

/-- A put opens its file: another number is given to it only if the place was free. -/
theorem create_cases {d d' : Disk} {now : ℤ} {k : BlockKey} {n ino : ℕ} {data : Bytes}
    (h : d.create now k n data = some (ino, d')) :
    d'.inodes = Function.update d.inodes ino ⟨.made n data, now⟩ ∧
      ((d.files.lookup k = some ino ∧ d'.created = d.created ∧ d'.files = d.files) ∨
        (ino = d.created ∧ d'.created = d.created + 1 ∧ d'.files = d.files.insert k ino)) := by
  simp only [Disk.create] at h
  split_ifs at h
  cases hk : d.files.lookup k with
  | some i =>
    rw [hk] at h
    cases h
    exact ⟨rfl, .inl ⟨rfl, rfl, rfl⟩⟩
  | none =>
    rw [hk] at h
    cases h
    exact ⟨rfl, .inr ⟨rfl, rfl, rfl⟩⟩

/-- The file that a put opens is empty. -/
theorem create_file {d d' : Disk} {now : ℤ} {k : BlockKey} {n ino : ℕ} {data : Bytes}
    (h : d.create now k n data = some (ino, d')) (i : ℕ) :
    (d'.inodes i).file = if i = ino then File.made n data else (d.inodes i).file := by
  rw [(create_cases h).1, Function.update_apply]
  split_ifs <;> rfl

theorem create_lookup {d d' : Disk} {now : ℤ} {k k' : BlockKey} {n ino i : ℕ} {data : Bytes}
    (h : d.create now k n data = some (ino, d')) (hk : d'.files.lookup k' = some i) :
    (k' = k ∧ i = ino) ∨ d.files.lookup k' = some i := by
  rcases (create_cases h).2 with ⟨-, -, hf⟩ | ⟨-, -, hf⟩
  · exact .inr (hf ▸ hk)
  · rw [hf, lookup_insert_ite] at hk
    split_ifs at hk with he
    · exact .inl ⟨he, (Option.some.inj hk).symm⟩
    · exact .inr hk

variable [DecidableEq T]

/-- Four operations matter to the content of open files; all others are quiet. -/
theorem step_cases (h : Step s s') :
    Quiet s s' ∨
    (∃ t l r i data, s.tasks t = none ∧ s' = s.startPut t (blockPath l r i) data) ∨
    (∃ t n k data ino d now, s.tasks t = some (.putBlock n k data .create) ∧
      s.disk.create now k n data = some (ino, d) ∧
      s' = (s.setDisk d).setTask t (some (.putBlock n k data (.write ino 0)))) ∨
    (∃ t n k data ino offset now m,
      s.tasks t = some (.putBlock n k data (.write ino offset)) ∧ offset + m ≤ data.length ∧
      s' = (s.setDisk (s.disk.write now ino n data offset m)).setTask t
        (some (.putBlock n k data (.write ino (offset + m))))) ∨
    (∃ t k ino, s.tasks t = some (.getBlock k .open) ∧ s.disk.files.lookup k = some ino ∧
      s' = s.setTask t (some (.getBlock k (.read ino)))) := by
  cases h with
  | putBlock l r i data ht => exact .inr (.inl ⟨_, l, r, i, data, ht, rfl⟩)
  | create now ht hd => exact .inr (.inr (.inl ⟨_, _, _, _, _, _, now, ht, hd, rfl⟩))
  | write now m ht _ hn =>
    exact .inr (.inr (.inr (.inl ⟨_, _, _, _, _, _, now, m, ht, hn, rfl⟩)))
  | «open» ht hf => exact .inr (.inr (.inr (.inr ⟨_, _, _, ht, hf, rfl⟩)))
  | statFile ht _ => exact .inl (quiet_plain (follows_put ht nofun))
  | statOther ht => exact .inl (quiet_plain (follows_put ht nofun))
  | remove ht hd => exact .inl (quiet_setTask (remove_shrinks hd) (follows_put ht nofun))
  | mkdirAll ht hd => exact .inl (quiet_setTask (mkdirAll_shrinks hd) (follows_put ht nofun))
  | close ht => exact .inl (quiet_plain (follows_put ht nofun))
  | putFails _ _ => exact .inl (quiet_plain trivial)
  | lock ht _ => exact .inl (quiet_acquire (follows_put ht nofun))
  | visit ht _ => exact .inl (quiet_plain (follows_put ht nofun))
  | fits _ _ => exact .inl (quiet_release s _)
  | sort ht _ => exact .inl (quiet_plain (follows_put ht nofun))
  | evict ht _ hd => exact .inl (quiet_setTask (remove_shrinks hd) (follows_put ht nofun))
  | evictFails ht _ => exact .inl (quiet_plain (follows_put ht nofun))
  | prune ht _ hd => exact .inl (quiet_setTask (remove_shrinks hd) (follows_put ht nofun))
  | pruneFails ht => exact .inl (quiet_plain (follows_put ht nofun))
  | evicted _ _ => exact .inl (quiet_release s _)
  | getBlock l r i _ => exact .inl (quiet_plain ⟨by simp [blockPath], nofun⟩)
  | chtimes now _ => exact .inl (quiet_setTask (chtimes_shrinks s.disk now _) trivial)
  | getFails _ => exact .inl (quiet_plain trivial)
  | invalidateLink l _ => exact .inl (quiet_plain trivial)
  | removeAll _ _ hd => exact .inl ⟨remove_shrinks hd, fun _ => .inl rfl, rfl⟩
  | invalidated _ => exact .inl (quiet_plain trivial)
  | kill => exact .inl ⟨.refl s.disk, fun _ => .inr trivial, rfl⟩

end Cases

section Invariant

/-- The file was last truncated by a put for this key. -/
def Holds (s : Store T) (k : BlockKey) (ino : ℕ) : Prop :=
  ino < s.disk.created ∧
    ∃ n data, (s.disk.inodes ino).file.maker = some (n, data) ∧ s.puts[n]? = some (k, data)

theorem Holds.unique {k k' : BlockKey} {ino : ℕ} (h : Holds s k ino) (h' : Holds s k' ino) :
    k = k' := by
  obtain ⟨-, n, data, hm, hp⟩ := h
  obtain ⟨-, n', data', hm', hp'⟩ := h'
  rw [hm] at hm'
  cases hm'
  rw [hp] at hp'
  cases hp'
  rfl

/-- Open files belong to their keys, and no two puts have one number; a put that still is the
maker of its file has written as far as its offset. -/
structure Inv (s : Store T) : Prop where
  sound : ∀ ino, (s.disk.inodes ino).file.Sound
  place : ∀ k ino, s.disk.files.lookup k = some ino → ino < s.disk.created
  block : ∀ k ino, s.disk.files.lookup k = some ino → k.index ≠ none → Holds s k ino
  put : ∀ t n k data phase, s.tasks t = some (.putBlock n k data phase) →
    s.puts[n]? = some (k, data) ∧ k.index ≠ none
  alone : ∀ t u n k k' data data' phase phase',
    s.tasks t = some (.putBlock n k data phase) →
      s.tasks u = some (.putBlock n k' data' phase') → t = u
  writing : ∀ t n k data ino offset,
    s.tasks t = some (.putBlock n k data (.write ino offset)) →
      Holds s k ino ∧ ∀ d, (s.disk.inodes ino).file.maker = some (n, d) →
        (s.disk.inodes ino).file.written = offset
  get : ∀ t k phase, s.tasks t = some (.getBlock k phase) → k.index ≠ none
  reading : ∀ t k ino, s.tasks t = some (.getBlock k (.read ino)) → Holds s k ino

theorem inv_pristine (h : s.Pristine) : Inv s := by
  have idle : ∀ {t : T} {task : Task} {P : Prop}, s.tasks t = some task → P := by
    intro t task P ht
    rw [h.tasks t] at ht
    cases ht
  constructor
  · intro ino n data hm _
    rw [h.unmade ino] at hm
    cases hm
  · exact fun k ino hk => (h.old k ino hk).2
  · exact fun k ino hk hi => absurd (h.old k ino hk).1 hi
  · exact fun t n k data phase ht => idle ht
  · exact fun t u n k k' data data' phase phase' ht _ => idle ht
  · exact fun t n k data ino offset ht => idle ht
  · exact fun t k phase ht => idle ht
  · exact fun t k ino ht => idle ht

theorem Quiet.holds (h : Quiet s s') {k : BlockKey} {ino : ℕ} (hh : Holds s k ino) :
    Holds s' k ino := by
  obtain ⟨hlt, n, data, hm, hp⟩ := hh
  refine ⟨by rw [h.disk.created]; exact hlt, n, data, ?_, ?_⟩
  · rw [h.disk.file]
    exact hm
  · rw [h.puts]
    exact hp

theorem Quiet.put (h : Quiet s s') {t : T} {n : ℕ} {k : BlockKey} {data : Bytes}
    {phase : PutPhase} (ht : s'.tasks t = some (.putBlock n k data phase)) :
    ∃ phase', s.tasks t = some (.putBlock n k data phase') := by
  rcases h.tasks t with he | hf
  · exact ⟨phase, by rw [← he, ht]⟩
  · rw [ht] at hf
    exact hf.1

theorem inv_quiet (hi : Inv s) (h : Quiet s s') : Inv s' := by
  constructor
  · intro ino
    rw [h.disk.file]
    exact hi.sound ino
  · intro k ino hk
    rw [h.disk.created]
    exact hi.place k ino (h.disk.files k ino hk)
  · exact fun k ino hk hidx => h.holds (hi.block k ino (h.disk.files k ino hk) hidx)
  · intro t n k data phase ht
    obtain ⟨phase', ht'⟩ := h.put ht
    rw [h.puts]
    exact hi.put t n k data phase' ht'
  · intro t u n k k' data data' phase phase' ht hu
    obtain ⟨p, ht'⟩ := h.put ht
    obtain ⟨p', hu'⟩ := h.put hu
    exact hi.alone t u n k k' data data' p p' ht' hu'
  · intro t n k data ino offset ht
    rcases h.tasks t with he | hf
    · have hw := hi.writing t n k data ino offset (he ▸ ht)
      refine ⟨h.holds hw.1, ?_⟩
      rw [h.disk.file]
      exact hw.2
    · rw [ht] at hf
      exact absurd rfl (hf.2 ino offset)
  · intro t k phase ht
    rcases h.tasks t with he | hf
    · exact hi.get t k phase (he ▸ ht)
    · rw [ht] at hf
      exact hf.1
  · intro t k ino ht
    rcases h.tasks t with he | hf
    · exact h.holds (hi.reading t k ino (he ▸ ht))
    · rw [ht] at hf
      exact absurd rfl (hf.2 ino)

/-- One more put is on record. -/
theorem Inv.logged (hi : Inv s) (k : BlockKey) (data : Bytes) :
    Inv { s with puts := s.puts ++ [(k, data)] } := by
  have logged : ∀ {i : ℕ} {b : BlockKey × Bytes}, s.puts[i]? = some b →
      (s.puts ++ [(k, data)])[i]? = some b := fun hb =>
    (List.getElem?_append_left (List.getElem?_eq_some_iff.mp hb).1).trans hb
  have holds : ∀ {k' : BlockKey} {i : ℕ}, Holds s k' i →
      Holds { s with puts := s.puts ++ [(k, data)] } k' i := by
    intro k' i hh
    obtain ⟨hlt, n, d, hm, hp⟩ := hh
    exact ⟨hlt, n, d, hm, logged hp⟩
  constructor
  · exact hi.sound
  · exact hi.place
  · exact fun k' ino hk' hidx => holds (hi.block k' ino hk' hidx)
  · intro u n k' data' phase hu
    have hp := hi.put u n k' data' phase hu
    exact ⟨logged hp.1, hp.2⟩
  · exact hi.alone
  · intro u n k' data' ino offset hu
    have hw := hi.writing u n k' data' ino offset hu
    exact ⟨holds hw.1, hw.2⟩
  · exact hi.get
  · exact fun u k' ino hu => holds (hi.reading u k' ino hu)

/-- The disk changes under the calls: open files still belong to their keys, and every put is as
far as its file. -/
theorem Inv.setDisk {d : Disk} (hi : Inv s)
    (holds : ∀ k' i, Holds s k' i → Holds (s.setDisk d) k' i)
    (sound : ∀ i, (d.inodes i).file.Sound)
    (place : ∀ k' i, d.files.lookup k' = some i → i < d.created)
    (block : ∀ k' i, d.files.lookup k' = some i → k'.index ≠ none → Holds (s.setDisk d) k' i)
    (writing : ∀ u n k data ino offset,
      s.tasks u = some (.putBlock n k data (.write ino offset)) →
        ∀ data', (d.inodes ino).file.maker = some (n, data') →
          (d.inodes ino).file.written = offset) : Inv (s.setDisk d) where
  sound := sound
  place := place
  block := block
  put := hi.put
  alone := hi.alone
  writing u n k data ino offset hu :=
    ⟨holds k ino (hi.writing u n k data ino offset hu).1, writing u n k data ino offset hu⟩
  get := hi.get
  reading u k ino hu := holds k ino (hi.reading u k ino hu)

end Invariant

section Effects

variable [DecidableEq T] {t : T} {n ino offset m : ℕ} {k : BlockKey} {data : Bytes} {now : ℤ}

theorem tasks_setTask (s : Store T) (t u : T) (task : Option Task) :
    (s.setTask t task).tasks u = if u = t then task else s.tasks u := Function.update_apply ..

@[simp] theorem tasks_setTask_self (s : Store T) (t : T) (task : Option Task) :
    (s.setTask t task).tasks t = task := Function.update_self ..

/-- One call becomes another that meets the invariant. -/
theorem Inv.setTask {task : Option Task} (hi : Inv s)
    (hput : ∀ n k data phase, task = some (.putBlock n k data phase) →
      (s.puts[n]? = some (k, data) ∧ k.index ≠ none) ∧
        ∀ u k' data' phase', s.tasks u = some (.putBlock n k' data' phase') → u = t)
    (hwriting : ∀ n k data ino offset, task = some (.putBlock n k data (.write ino offset)) →
      Holds s k ino ∧ ∀ d, (s.disk.inodes ino).file.maker = some (n, d) →
        (s.disk.inodes ino).file.written = offset)
    (hget : ∀ k phase, task = some (.getBlock k phase) → k.index ≠ none)
    (hreading : ∀ k ino, task = some (.getBlock k (.read ino)) → Holds s k ino) :
    Inv (s.setTask t task) := by
  constructor
  · exact hi.sound
  · exact hi.place
  · exact hi.block
  · intro u n k data phase hu
    rw [tasks_setTask] at hu
    split_ifs at hu
    · exact (hput n k data phase hu).1
    · exact hi.put u n k data phase hu
  · intro u v n k₁ k₂ d₁ d₂ p₁ p₂ hu hv
    rw [tasks_setTask] at hu hv
    split_ifs at hu hv with h₁ h₂ h₂
    · rw [h₁, h₂]
    · exact h₁.trans ((hput n k₁ d₁ p₁ hu).2 v k₂ d₂ p₂ hv).symm
    · exact ((hput n k₂ d₂ p₂ hv).2 u k₁ d₁ p₁ hu).trans h₂.symm
    · exact hi.alone u v n k₁ k₂ d₁ d₂ p₁ p₂ hu hv
  · intro u n k data ino offset hu
    rw [tasks_setTask] at hu
    split_ifs at hu
    · exact hwriting n k data ino offset hu
    · exact hi.writing u n k data ino offset hu
  · intro u k phase hu
    rw [tasks_setTask] at hu
    split_ifs at hu
    · exact hget k phase hu
    · exact hi.get u k phase hu
  · intro u k ino hu
    rw [tasks_setTask] at hu
    split_ifs at hu
    · exact hreading k ino hu
    · exact hi.reading u k ino hu

theorem inv_startPut (hi : Inv s) (hk : k.index ≠ none) : Inv (s.startPut t k data) := by
  refine (hi.logged k data).setTask ?_ ?_ ?_ ?_
  · intro n k' data' phase he
    cases he
    refine ⟨⟨List.getElem?_concat_length, hk⟩, ?_⟩
    -- no put has the next number yet
    intro u k' data' phase' hu
    have hp := (hi.put u _ k' data' phase' hu).1
    rw [List.getElem?_eq_none (Nat.le_refl _)] at hp
    cases hp
  · intro n k' data' ino offset he
    cases he
  · intro k' phase he
    cases he
  · intro k' ino he
    cases he

theorem inv_open (hi : Inv s) (ht : s.tasks t = some (.getBlock k .open))
    (hf : s.disk.files.lookup k = some ino) :
    Inv (s.setTask t (some (.getBlock k (.read ino)))) := by
  have hidx := hi.get t k .open ht
  refine hi.setTask ?_ ?_ ?_ ?_
  · intro n k' data' phase he
    cases he
  · intro n k' data' ino' offset he
    cases he
  · intro k' phase he
    cases he
    exact hidx
  · intro k' ino' he
    cases he
    exact hi.block k ino hf hidx

/-- A put changes its file and moves on to write behind `offset`. -/
theorem inv_put {d : Disk} {phase : PutPhase} (hi : Inv s)
    (ht : s.tasks t = some (.putBlock n k data phase))
    (holds : ∀ k' i, Holds s k' i → Holds (s.setDisk d) k' i)
    (sound : ∀ i, (d.inodes i).file.Sound)
    (place : ∀ k' i, d.files.lookup k' = some i → i < d.created)
    (block : ∀ k' i, d.files.lookup k' = some i → k'.index ≠ none → Holds (s.setDisk d) k' i)
    (here : Holds (s.setDisk d) k ino)
    (own : ∀ data', (d.inodes ino).file.maker = some (n, data') →
      (d.inodes ino).file.written = offset)
    (others : ∀ i n' data', n' ≠ n → (d.inodes i).file.maker = some (n', data') →
      (s.disk.inodes i).file.maker = some (n', data') ∧
        (d.inodes i).file.written = (s.disk.inodes i).file.written) :
    Inv ((s.setDisk d).setTask t (some (.putBlock n k data (.write ino offset)))) := by
  -- the put is set aside while its file changes
  have hs : (s.setDisk d).setTask t (some (.putBlock n k data (.write ino offset))) =
      ((s.setTask t none).setDisk d).setTask t
        (some (.putBlock n k data (.write ino offset))) := by
    simp [Store.setTask, Store.setDisk, Function.update_idem]
  have hnone : Inv (s.setTask t none) := inv_quiet hi (quiet_plain trivial)
  have hother : ∀ {u n' k' data' phase'},
      (s.setTask t none).tasks u = some (.putBlock n' k' data' phase') →
        n' ≠ n ∧ s.tasks u = some (.putBlock n' k' data' phase') := by
    intro u n' k' data' phase' hu
    rw [tasks_setTask] at hu
    split_ifs at hu with hut
    refine ⟨?_, hu⟩
    rintro rfl
    exact hut (hi.alone u t n' k' k data' data phase' phase hu ht)
  rw [hs]
  refine (hnone.setDisk holds sound place block ?_).setTask ?_ ?_ ?_ ?_
  · intro u n' k' data' i o hu d' hm
    obtain ⟨hne, hold⟩ := hother hu
    obtain ⟨hm', hw⟩ := others i n' d' hne hm
    exact hw.trans ((hi.writing u n' k' data' i o hold).2 d' hm')
  · intro n' k' data' phase' he
    cases he
    refine ⟨hi.put t n k data phase ht, ?_⟩
    intro u k' data' phase' hu
    exact absurd rfl (hother hu).1
  · intro n' k' data' ino' offset' he
    cases he
    exact ⟨here, own⟩
  · intro k' phase' he
    cases he
  · intro k' i he
    cases he

theorem inv_create {d : Disk} (hi : Inv s) (ht : s.tasks t = some (.putBlock n k data .create))
    (hd : s.disk.create now k n data = some (ino, d)) :
    Inv ((s.setDisk d).setTask t (some (.putBlock n k data (.write ino 0)))) := by
  obtain ⟨hput, hidx⟩ := hi.put t n k data .create ht
  have file := create_file hd
  obtain ⟨hcreated, hino, same⟩ : s.disk.created ≤ d.created ∧ ino < d.created ∧
      ∀ {k'}, Holds s k' ino → k' = k := by
    -- a file that is truncated belongs to this key already, a new one to no other
    rcases (create_cases hd).2 with ⟨hk, hc, -⟩ | ⟨hnew, hc, -⟩
    · have hlt := hi.place k ino hk
      exact ⟨hc.ge, by omega, fun hh => hh.unique (hi.block k ino hk hidx)⟩
    · refine ⟨by omega, by omega, fun hh => ?_⟩
      have hlt := hh.1
      omega
  have here : Holds (s.setDisk d) k ino :=
    ⟨hino, n, data, by change (d.inodes ino).file.maker = _; rw [file, if_pos rfl]; rfl, hput⟩
  have holds : ∀ k' i, Holds s k' i → Holds (s.setDisk d) k' i := by
    intro k' i hh
    by_cases hi' : i = ino
    · subst hi'
      rw [same hh]
      exact here
    · obtain ⟨hlt, n', data', hm, hp⟩ := hh
      refine ⟨Nat.lt_of_lt_of_le hlt hcreated, n', data', ?_, hp⟩
      change (d.inodes i).file.maker = _
      rw [file, if_neg hi', hm]
  apply inv_put hi ht holds
  · intro i
    rw [file]
    split_ifs
    · exact File.sound_made n data
    · exact hi.sound i
  · intro k' i hk'
    rcases create_lookup hd hk' with ⟨-, rfl⟩ | hold
    · exact hino
    · exact Nat.lt_of_lt_of_le (hi.place k' i hold) hcreated
  · intro k' i hk' hidx'
    rcases create_lookup hd hk' with ⟨rfl, rfl⟩ | hold
    · exact here
    · exact holds k' i (hi.block k' i hold hidx')
  · exact here
  · intro d' _
    rw [file, if_pos rfl]
    rfl
  · intro i n' d' hne hm
    rw [file] at hm ⊢
    split_ifs at hm ⊢
    · cases hm
      exact absurd rfl hne
    · exact ⟨hm, rfl⟩

theorem inv_write (hi : Inv s)
    (ht : s.tasks t = some (.putBlock n k data (.write ino offset)))
    (hm : offset + m ≤ data.length) :
    Inv ((s.setDisk (s.disk.write now ino n data offset m)).setTask t
      (some (.putBlock n k data (.write ino (offset + m))))) := by
  obtain ⟨hput, hidx⟩ := hi.put t n k data _ ht
  obtain ⟨hold, hown⟩ := hi.writing t n k data ino offset ht
  have file : ∀ i, ((s.disk.write now ino n data offset m).inodes i).file =
      if i = ino then (s.disk.inodes i).file.write 0 n data offset m
      else (s.disk.inodes i).file := by
    intro i
    simp only [Disk.write, Function.update_apply]
    split_ifs with h
    · rw [h]
    · rfl
  have maker : ∀ i, ((s.disk.write now ino n data offset m).inodes i).file.maker =
      (s.disk.inodes i).file.maker := by
    intro i
    rw [file]
    split_ifs <;> rfl
  have holds : ∀ k' i, Holds s k' i →
      Holds (s.setDisk (s.disk.write now ino n data offset m)) k' i := by
    intro k' i hh
    obtain ⟨hlt, n', data', hmk, hp⟩ := hh
    exact ⟨hlt, n', data', (maker i).trans hmk, hp⟩
  apply inv_put hi ht holds
  · intro i
    rw [file]
    split_ifs with h
    · subst h
      exact (hi.sound i).write hm hown
    · exact hi.sound i
  · exact hi.place
  · exact fun k' i hk' hidx' => holds k' i (hi.block k' i hk' hidx')
  · exact holds k ino hold
  · intro d' hmk
    rw [maker] at hmk
    rw [file, if_pos rfl]
    simp [File.write, hmk]
  · intro i n' d' hne hmk
    rw [maker] at hmk
    refine ⟨hmk, ?_⟩
    rw [file]
    split_ifs
    · simp [File.write, hmk, hne]
    · rfl

theorem inv_step (hi : Inv s) (h : Step s s') : Inv s' := by
  rcases step_cases h with hq | ⟨t, l, r, i, data, -, rfl⟩ |
    ⟨t, n, k, data, ino, d, now, ht, hd, rfl⟩ |
    ⟨t, n, k, data, ino, offset, now, m, ht, hm, rfl⟩ | ⟨t, k, ino, ht, hf, rfl⟩
  · exact inv_quiet hi hq
  · exact inv_startPut hi (by simp [blockPath])
  · exact inv_create hi ht hd
  · exact inv_write hi ht hm
  · exact inv_open hi ht hf

theorem inv_readFile (hi : Inv s) (ht : s.tasks t = some (.getBlock k (.read ino))) :
    Inv (s.readFile t k ino) := by
  have hq : Quiet s (s.setTask t (some (.getBlock k .chtimes))) :=
    quiet_plain ⟨hi.get t k _ ht, nofun⟩
  exact inv_quiet hi ⟨hq.disk, hq.tasks, hq.puts⟩

end Effects

section Runs

variable [DecidableEq T] {ok : Inode → Prop}

theorem reached_inv (h : Reached ok s) : Inv s := by
  induction h with
  | start h => exact inv_pristine h
  | step _ h ih => exact inv_step ih h
  | read _ ht _ ih => exact inv_readFile ih ht

theorem step_hits (h : Step s s') : s'.hits = s.hits := by
  cases h <;> rfl

/-- What was passed to `PutBlock` stays on record. -/
theorem mem_puts_step (h : Step s s') {b : BlockKey × Bytes} (hb : b ∈ s.puts) :
    b ∈ s'.puts := by
  rcases step_cases h with hq | ⟨t, l, r, i, data, -, rfl⟩ |
    ⟨t, n, k, data, ino, d, now, -, -, rfl⟩ |
    ⟨t, n, k, data, ino, offset, now, m, -, -, rfl⟩ | ⟨t, k, ino, -, -, rfl⟩
  · rw [hq.puts]
    exact hb
  · exact List.mem_append_left _ hb
  · exact hb
  · exact hb
  · exact hb

/-- As long as every read finds a settled file, every hit is a block as it was put. -/
theorem hits_intact (h : Reached Inode.Settled s) : s.Intact := by
  induction h with
  | start h =>
    intro b hb
    rw [h.hits] at hb
    cases hb
  | step _ hs ih =>
    intro b hb
    rw [step_hits hs] at hb
    exact mem_puts_step hs (ih b hb)
  | read hr ht hok ih =>
    have hi := reached_inv hr
    obtain ⟨-, n, data, hm, hp⟩ := hi.reading _ _ _ ht
    obtain ⟨n', data', hm', hc⟩ := File.Settled.content_eq hok (hi.sound _)
    rw [hm] at hm'
    cases hm'
    intro b hb
    rcases List.mem_append.mp hb with hb | hb
    · exact ih b hb
    · rw [List.mem_singleton.mp hb, hc]
      exact List.mem_of_getElem? hp

end Runs

/-- A cache directory with nothing in it. -/
def blank : Store ℕ where
  maxSize := 1000
  target := 900
  disk := ⟨fun _ => ⟨⟨[], none, 0, false⟩, 0⟩, 0, fun _ => false, ∅⟩
  tasks := fun _ => none
  mu := none
  puts := []
  hits := []

theorem blank_pristine : blank.Pristine :=
  ⟨fun _ => rfl, rfl, rfl, fun _ => rfl, fun _ _ h => nomatch h⟩

/-- A put has written the first of two bytes. -/
theorem reached_halfWritten (ok : Inode → Prop) : ∃ s : Store ℕ, Reached ok s ∧
    s.tasks 0 = some (.putBlock 0 (blockPath "l" "r" 0) [1, 2] (.write 0 1)) ∧
    s.tasks 1 = none ∧ s.disk.files.lookup (blockPath "l" "r" 0) = some 0 ∧
    (s.disk.inodes 0).file = ⟨[1], some (0, [1, 2]), 1, false⟩ ∧
    s.puts = [(blockPath "l" "r" 0, [1, 2])] ∧ s.hits = [] := by
  have h₀ : Reached ok blank := .start blank_pristine
  have h₁ := h₀.step (.putBlock (t := 0) "l" "r" 0 [1, 2] rfl)
  have h₂ := h₁.step (.statOther (t := 0) rfl)
  have h₃ := h₂.step (.mkdirAll (t := 0) rfl rfl)
  have h₄ := h₃.step (.create (t := 0) 0 rfl rfl)
  exact ⟨_, h₄.step (.write (t := 0) 0 1 rfl (by decide) (by decide)),
    rfl, rfl, rfl, rfl, rfl, rfl⟩

theorem hits_intact_settled : ∃ s : Store ℕ, Reached Inode.Settled s ∧
    s.hits = [(blockPath "l" "r" 0, [1, 2])] ∧ s.Intact := by
  obtain ⟨s, h₅, hput, hidle, hfile, hino, hputs, hhits⟩ :=
    reached_halfWritten Inode.Settled
  have h₆ := h₅.step (.write (t := 0) 0 1 hput (by decide) (by decide))
  have h₇ := h₆.step (.getBlock (t := 1) "l" "r" 0 (by simpa [Store.setTask, Store.setDisk]))
  have h₈ := h₇.step (.open (t := 1) (tasks_setTask_self _ _ _) hfile)
  have hsettled : ((s.disk.write 0 0 0 [1, 2] 1 1).inodes 0).Settled := by
    simp only [Disk.write, Function.update_self, File.write, hino, Inode.Settled]
    exact ⟨rfl, 0, [1, 2], rfl, rfl⟩
  have h₉ := h₈.read (t := 1) (tasks_setTask_self _ _ _) hsettled
  refine ⟨_, h₉, ?_, hits_intact h₉⟩
  simp [Store.readFile, Store.setTask, Store.setDisk, Disk.write, File.write, hino, hhits, writeAt]

/-- The second write fails; a later read returns the byte that was written. -/
theorem hits_intact_fails :
    ¬∀ s : Store ℕ, Reached (fun _ => True) s → s.Intact := by
  intro hall
  obtain ⟨s, h₅, hput, hidle, hfile, hino, hputs, hhits⟩ :=
    reached_halfWritten fun _ => True
  have h₆ := h₅.step (.putFails (t := 0) hput trivial)
  have h₇ := h₆.step (.getBlock (t := 1) "l" "r" 0 (by simpa [Store.setTask]))
  have h₈ := h₇.step (.open (t := 1) (tasks_setTask_self _ _ _) hfile)
  have h₉ := h₈.read (t := 1) (tasks_setTask_self _ _ _) trivial
  have hbad := hall _ h₉ (blockPath "l" "r" 0, [1])
    (by simp [Store.readFile, Store.setTask, hhits, hino])
  simp [Store.readFile, Store.setTask, hputs] at hbad

end ProtonDrive.BlockIntegrity
