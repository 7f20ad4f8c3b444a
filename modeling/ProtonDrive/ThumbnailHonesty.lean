import ProtonDrive.Thumbnails

/-!
# What the thumbnail cache returns

A thumbnail is written in place, so its file can be found while it is being written, or after
the write failed, and then its length says nothing about the revision. The invariant ties what
is or will be written to the server's answers, and each call that writes to its file.
-/

namespace ProtonDrive.ThumbnailHonesty
open SlashPaths DriveApi InPlaceFiles PartialRuns Thumbnails

section Invariant

variable {T : Type} {c : Session} {s : State T}

/-- The server's answer that a payload comes from. -/
def Answered (s : State T) (k : Key) : Payload → Prop
  | .sentinel => k ∈ s.emptied
  | .thumbnail data => (k, data) ∈ s.delivered

/-- Whatever is or will be written was answered, no two calls have one write, and a call whose
write still is the last one to its file has written as far as its offset. -/
structure Inv (c : Session) (s : State T) : Prop where
  sound : ∀ p f, s.files p = some f → f.Sound
  written : ∀ w ∈ s.writes, Answered s w.1 w.2
  unwritten : ∀ t k phase payload, s.tasks t = some ⟨k, phase⟩ → phase.payload = some payload →
    Answered s k payload
  alone : ∀ t u k k' payload payload' n offset offset',
    s.tasks t = some ⟨k, .write payload n offset⟩ →
      s.tasks u = some ⟨k', .write payload' n offset'⟩ → t = u
  writing : ∀ t k payload n offset, s.tasks t = some ⟨k, .write payload n offset⟩ →
    n < s.writes.length ∧ ∀ f data, s.files (thumbnailCachePath c k) = some f →
      f.maker = some (n, data) → f.written = offset
  honest : Honest s

theorem inv_pristine (h : s.Pristine) : Inv c s := by
  constructor
  · intro p f hf
    rw [h.files p] at hf
    cases hf
  · simp [h.writes]
  · simp [h.tasks]
  · simp [h.tasks]
  · simp [h.tasks]
  · constructor <;> simp [h.returns]

/-- A settled file holds what its last write stored. -/
theorem Inv.content_eq {p : Path} {f : File UInt8 ℕ} {k : Key} {payload : Payload} (hi : Inv c s)
    (hf : s.files p = some f) (hl : LastWrite s f k payload) (hs : f.Settled) :
    f.content = payload.data := by
  obtain ⟨n, hm, -⟩ := hl
  obtain ⟨n', data, hm', hc⟩ := hs.content_eq (hi.sound p f hf)
  rw [hm] at hm'
  cases hm'
  exact hc

/-- What is stored is what the server has delivered. -/
theorem Inv.content_of_stored {k : Key} (hi : Inv c s) (h : Stored c s k) :
    ∃ data, data ≠ [] ∧ (k, data) ∈ s.delivered ∧
      (s.files (thumbnailCachePath c k)).map File.content = some data := by
  obtain ⟨f, data, hf, hl, hne, hs⟩ := h
  have hc := hi.content_eq hf hl hs
  obtain ⟨n, -, hw⟩ := hl
  refine ⟨data, hne, hi.written _ (List.mem_of_getElem? hw), ?_⟩
  rw [hf, Option.map_some, hc]
  rfl

theorem Inv.emptied_of_storedNone {k : Key} (hi : Inv c s) (h : StoredNone c s k) :
    k ∈ s.emptied := by
  obtain ⟨f, -, n, -, hw⟩ := h
  exact hi.written _ (List.mem_of_getElem? hw)

/-- More is on record of what the server has answered. -/
theorem Inv.logged {emptied : List Key} {delivered : List (Key × Bytes)} (hi : Inv c s)
    (he : ∀ k ∈ s.emptied, k ∈ emptied) (hd : ∀ d ∈ s.delivered, d ∈ delivered) :
    Inv c { s with emptied, delivered } := by
  have logged : ∀ {k : Key} {payload : Payload}, Answered s k payload →
      Answered { s with emptied, delivered } k payload := by
    intro k payload ha
    cases payload with
    | sentinel => exact he k ha
    | thumbnail data => exact hd _ ha
  constructor
  · exact hi.sound
  · exact fun w hw => logged (hi.written w hw)
  · exact fun t k phase payload ht hp => logged (hi.unwritten t k phase payload ht hp)
  · exact hi.alone
  · exact hi.writing
  · constructor
    · intro r hr p hp hne
      obtain ⟨data, hdata, hmem, hc⟩ := hi.honest.path r hr p hp hne
      exact ⟨data, hdata, hd _ hmem, hc⟩
    · exact fun r hr hl hv hp hn => he _ (hi.honest.none r hr hl hv hp hn)

theorem Inv.setDirs (hi : Inv c s) (dirs : Path → Bool) : Inv c { s with dirs } :=
  ⟨hi.sound, hi.written, hi.unwritten, hi.alone, hi.writing, ⟨hi.honest.path, hi.honest.none⟩⟩

theorem Inv.kill (hi : Inv c s) : Inv c s.kill := by
  refine ⟨hi.sound, hi.written, ?_, ?_, ?_, ⟨hi.honest.path, hi.honest.none⟩⟩ <;>
    simp [State.kill]

/-- The file at a path changes; the calls that write to it stay as far as they have written. -/
theorem Inv.setFile {p : Path} {f : File UInt8 ℕ} (hi : Inv c s) (hf : f.Sound)
    (hw : ∀ t k payload n offset data, s.tasks t = some ⟨k, .write payload n offset⟩ →
      thumbnailCachePath c k = p → f.maker = some (n, data) → f.written = offset) :
    Inv c (s.setFile p f) := by
  constructor
  · intro q g hg
    simp only [State.setFile, Function.update_apply] at hg
    split_ifs at hg with hq
    · cases hg
      exact hf
    · exact hi.sound q g hg
  · exact hi.written
  · exact hi.unwritten
  · exact hi.alone
  · intro t k payload n offset ht
    refine ⟨(hi.writing t k payload n offset ht).1, fun g data hg hm => ?_⟩
    simp only [State.setFile, Function.update_apply] at hg
    split_ifs at hg with hq
    · cases hg
      exact hw t k payload n offset data ht hq hm
    · exact (hi.writing t k payload n offset ht).2 g data hg hm
  · exact ⟨hi.honest.path, hi.honest.none⟩

/-- One more write is on record. -/
theorem Inv.started {k : Key} {payload : Payload} (hi : Inv c s) (ha : Answered s k payload) :
    Inv c { s with writes := s.writes ++ [(k, payload)] } := by
  refine ⟨hi.sound, ?_, hi.unwritten, hi.alone, ?_, ⟨hi.honest.path, hi.honest.none⟩⟩
  · intro w hw
    rcases List.mem_append.mp hw with hw | hw
    · exact hi.written w hw
    · cases List.mem_singleton.mp hw
      exact ha
  · intro u k' payload' n offset hu
    have h := hi.writing u k' payload' n offset hu
    refine ⟨?_, h.2⟩
    rw [List.length_append]
    exact Nat.lt_add_right _ h.1

variable [DecidableEq T] {t : T} {k : Key}

theorem tasks_setTask {task : Option Task} {task' : Task} {u : T}
    (h : (s.setTask t task).tasks u = some task') :
    (u = t ∧ task = some task') ∨ (u ≠ t ∧ s.tasks u = some task') := by
  simp only [State.setTask, Function.update_apply] at h
  split_ifs at h with he
  · exact .inl ⟨he, h⟩
  · exact .inr ⟨he, h⟩

/-- One call becomes another that meets the invariant. -/
theorem Inv.setTask {task : Option Task} (hi : Inv c s)
    (hp : ∀ k phase payload, task = some ⟨k, phase⟩ → phase.payload = some payload →
      Answered s k payload)
    (hw : ∀ k payload n offset, task = some ⟨k, .write payload n offset⟩ →
      (∀ u k' payload' offset', s.tasks u = some ⟨k', .write payload' n offset'⟩ → u = t) ∧
      n < s.writes.length ∧ ∀ f data, s.files (thumbnailCachePath c k) = some f →
        f.maker = some (n, data) → f.written = offset) : Inv c (s.setTask t task) := by
  constructor
  · exact hi.sound
  · exact hi.written
  · intro u k phase payload hu hpay
    rcases tasks_setTask hu with ⟨-, ht⟩ | ⟨-, hu⟩
    · exact hp k phase payload ht hpay
    · exact hi.unwritten u k phase payload hu hpay
  · intro u v k₁ k₂ p₁ p₂ n o₁ o₂ hu hv
    rcases tasks_setTask hu with ⟨he, ht⟩ | ⟨-, hu'⟩
    · rcases tasks_setTask hv with ⟨he', -⟩ | ⟨-, hv'⟩
      · exact he.trans he'.symm
      · exact he.trans ((hw k₁ p₁ n o₁ ht).1 v k₂ p₂ o₂ hv').symm
    · rcases tasks_setTask hv with ⟨he, ht⟩ | ⟨-, hv'⟩
      · exact ((hw k₂ p₂ n o₂ ht).1 u k₁ p₁ o₁ hu').trans he.symm
      · exact hi.alone u v k₁ k₂ p₁ p₂ n o₁ o₂ hu' hv'
  · intro u k payload n offset hu
    rcases tasks_setTask hu with ⟨-, ht⟩ | ⟨-, hu⟩
    · exact (hw k payload n offset ht).2
    · exact hi.writing u k payload n offset hu
  · exact ⟨hi.honest.path, hi.honest.none⟩

/-- A call goes on with nothing to store. -/
theorem Inv.goto_plain {phase : Phase} (hi : Inv c s) (hp : phase.payload = none) :
    Inv c (s.goto t k phase) := by
  apply hi.setTask
  · intro k' phase' payload ht hpay
    cases ht
    rw [hp] at hpay
    cases hpay
  · intro k' payload n offset ht
    cases ht
    cases hp

/-- A call goes on towards its write. -/
theorem Inv.goto_store {phase : Phase} {payload : Payload} (hi : Inv c s)
    (hp : phase.payload = some payload) (hw : ∀ n offset, phase ≠ .write payload n offset)
    (ha : Answered s k payload) : Inv c (s.goto t k phase) := by
  apply hi.setTask
  · intro k' phase' payload' ht hpay
    cases ht
    rw [hp] at hpay
    cases hpay
    exact ha
  · intro k' payload' n offset ht
    cases ht
    cases hp
    exact absurd rfl (hw n offset)

/-- An honest return. -/
theorem Inv.finish {result : Except String Path} {network : Bool} (hi : Inv c s)
    (hpath : ∀ p, result = .ok p → p ≠ [] → ∃ data, data ≠ [] ∧ (k, data) ∈ s.delivered ∧
      (s.files p).map File.content = some data)
    (hnone : k.linkID ≠ "" → k.revisionID ≠ "" → result = .ok [] → network = false →
      k ∈ s.emptied) : Inv c (s.finish t k result network) := by
  have hidle : Inv c (s.setTask t none) := hi.setTask (by simp) (by simp)
  refine ⟨hidle.sound, hidle.written, hidle.unwritten, hidle.alone, hidle.writing, ?_⟩
  constructor
  · intro r hr p hp hne
    rcases List.mem_append.mp hr with hr | hr
    · exact hi.honest.path r hr p hp hne
    · cases List.mem_singleton.mp hr
      obtain rfl : result = .ok p := hp
      exact hpath p rfl hne
  · intro r hr hl hv hp hn
    rcases List.mem_append.mp hr with hr | hr
    · exact hi.honest.none r hr hl hv hp hn
    · cases List.mem_singleton.mp hr
      exact hnone hl hv hp hn

/-- The path of a stored thumbnail is returned. -/
theorem Inv.finish_path {network : Bool} (hi : Inv c s) (h : Stored c s k) :
    Inv c (s.finish t k (.ok (thumbnailCachePath c k)) network) := by
  refine hi.finish ?_ ?_
  · intro p hp _
    cases hp
    exact hi.content_of_stored h
  · intro _ _ hp
    exact absurd (Except.ok.inj hp) (thumbnailCachePath_ne_nil c k)

theorem Inv.create {payload : Payload} (hi : Inv c s) (ha : Answered s k payload) :
    Inv c (s.create t k (thumbnailCachePath c k) payload) := by
  have hfile : Inv c (s.setFile (thumbnailCachePath c k) (.made s.writes.length payload.data)) := by
    apply hi.setFile (File.sound_made _ _)
    intro u k' payload' n offset data hu _ hm
    cases hm
    exact absurd (hi.writing u k' payload' _ offset hu).1 (Nat.lt_irrefl _)
  refine (hfile.started ha).setTask ?_ ?_
  · intro k' phase payload' ht hpay
    cases ht
    cases hpay
    exact ha
  · intro k' payload' n offset ht
    cases ht
    refine ⟨?_, by simp [State.setFile], ?_⟩
    · intro u k' payload' offset' hu
      exact absurd (hi.writing u k' payload' _ offset' hu).1 (Nat.lt_irrefl _)
    · intro f data hf _
      simp only [State.setFile, Function.update_self, Option.some.injEq] at hf
      subst hf
      rfl

theorem Inv.write {payload : Payload} {serial offset n : ℕ} {f : File UInt8 ℕ} (hi : Inv c s)
    (ht : s.tasks t = some ⟨k, .write payload serial offset⟩)
    (hf : s.files (thumbnailCachePath c k) = some f) (hn : offset + n ≤ payload.data.length) :
    Inv c (s.write t k (thumbnailCachePath c k) f payload serial offset n) := by
  have hwriting := hi.writing t k payload serial offset ht
  have hidle : Inv c (s.setTask t none) := hi.setTask (by simp) (by simp)
  have halone : ∀ u k' payload' offset',
      (s.setTask t none).tasks u ≠ some ⟨k', .write payload' serial offset'⟩ := by
    intro u k' payload' offset' hu
    simp only [State.setTask, Function.update_apply] at hu
    split_ifs at hu with he
    exact he (hi.alone u t k' k payload' payload serial offset' offset hu ht)
  -- while the file changes, nobody is the writer
  have hfile : Inv c ((s.setTask t none).setFile (thumbnailCachePath c k)
      (f.write 0 serial payload.data offset n)) := by
    apply hidle.setFile
    · exact (hi.sound _ f hf).write hn fun d hm => hwriting.2 f d hf hm
    · intro u k' payload' n' offset' data hu hp hm
      have hne : n' ≠ serial := by
        rintro rfl
        exact halone u k' payload' offset' hu
      have hm' : f.maker = some (n', data) := hm
      have hw := (hidle.writing u k' payload' n' offset' hu).2 f data (by rw [hp]; exact hf) hm'
      simpa [File.write, hm', hne] using hw
  have hstate : s.write t k (thumbnailCachePath c k) f payload serial offset n =
      ((s.setTask t none).setFile (thumbnailCachePath c k)
        (f.write 0 serial payload.data offset n)).setTask t
          (some ⟨k, .write payload serial (offset + n)⟩) := by
    simp [State.write, State.goto, State.setTask, State.setFile, Function.update_idem]
  rw [hstate]
  refine hfile.setTask ?_ ?_
  · intro k' phase payload' hp hpay
    cases hp
    cases hpay
    exact hi.unwritten t k _ payload ht rfl
  · intro k' payload' n' offset' hp
    cases hp
    refine ⟨fun u k' payload' offset' hu => absurd hu (halone u k' payload' offset'),
      hwriting.1, ?_⟩
    intro g data hg hm
    simp only [State.setFile, Function.update_self, Option.some.injEq] at hg
    subst hg
    have hm' : f.maker = some (serial, data) := hm
    simp [File.write, hm']

theorem Inv.step {a : Action T} {s' : State T} (hi : Inv c s) (hq : Undisturbed c s a)
    (h : step c s a = some s') : Inv c s' := by
  cases step_effect h with
  | start k _ => exact hi.goto_plain rfl
  | reject _ hk => exact hi.finish (by simp) fun hl hv => absurd hk (by simp [hl, hv])
  | found _ _ => exact hi.goto_plain rfl
  | foundEmpty ht hs => exact hi.finish (by simp) fun _ _ _ _ =>
      hi.emptied_of_storedNone (hq _ ht hs)
  | hit ht => exact hi.finish_path (hq _ ht)
  | goes _ _ hp' _ => exact hi.goto_plain hp'
  | @emptied t k _ _ =>
    have hlogged := hi.logged (fun _ h => List.mem_append_left [k] h) (fun _ h => h)
    exact hlogged.goto_store rfl (by simp) (List.mem_append_right _ List.mem_cons_self)
  | @delivered t k _ _ data _ _ =>
    have hlogged := hi.logged (fun _ h => h) (fun _ h => List.mem_append_left [(k, data)] h)
    exact hlogged.goto_store rfl (by simp) (List.mem_append_right _ List.mem_cons_self)
  | mkdir dirs => exact hi.setDirs dirs
  | made ht => exact hi.goto_store rfl (by simp) (hi.unwritten _ _ _ _ ht rfl)
  | create ht => exact hi.create (hi.unwritten _ _ _ _ ht rfl)
  | write ht hf hn => exact hi.write ht hf hn
  | stored ht => exact hi.finish_path (hq _ ht rfl)
  | fails network _ _ => exact hi.finish (by simp) (by simp)
  | nothing _ _ => exact hi.finish (by simp) (by simp)
  | kill => exact hi.kill

end Invariant

section Careful

variable {T : Type} {c : Session} {s : State T}

/-- No two calls for one cache path at a time, one revision for each cache path, no directory in
its place, no thumbnail without bytes, and no write of a thumbnail that is cut short. -/
def Careful (c : Session) (s : State T) : Action T → Prop
  | .fetchThumbnail _ k =>
    (∀ u task, s.tasks u = some task →
      thumbnailCachePath c task.key ≠ thumbnailCachePath c k) ∧
    ∀ w ∈ s.writes, thumbnailCachePath c w.1 = thumbnailCachePath c k → w.1 = k
  | .run t e => ∀ task, s.tasks t = some task → match task.phase, e with
    | .stat, .stat _ => s.dirs (thumbnailCachePath c task.key) = false
    | .download block, .download get => downloadThumbnailBlock get block ≠ .ok []
    | .write (.thumbnail _) _ _, .fails => False
    | _, _ => True
  | .kill => ∀ t k data n offset, s.tasks t ≠ some ⟨k, .write (.thumbnail data) n offset⟩

/-- Every file is complete or still being written by the only call for its path. -/
structure Calm (c : Session) (s : State T) : Prop where
  one : ∀ t u task task', s.tasks t = some task → s.tasks u = some task' →
    thumbnailCachePath c task.key = thumbnailCachePath c task'.key → t = u
  key : ∀ t task, s.tasks t = some task → ∀ w ∈ s.writes,
    thumbnailCachePath c w.1 = thumbnailCachePath c task.key → w.1 = task.key
  filled : ∀ w ∈ s.writes, w.2 ≠ .thumbnail []
  pending : ∀ t k phase, s.tasks t = some ⟨k, phase⟩ → phase.payload ≠ some (.thumbnail [])
  file : ∀ p f, s.files p = some f → ∃ k payload, thumbnailCachePath c k = p ∧
    LastWrite s f k payload ∧ f.mixed = false ∧
      (f.written = payload.data.length ∨
        ∃ t n offset, s.tasks t = some ⟨k, .write payload n offset⟩)
  writing : ∀ t k payload n offset, s.tasks t = some ⟨k, .write payload n offset⟩ →
    ∃ f, s.files (thumbnailCachePath c k) = some f ∧ f.maker = some (n, payload.data) ∧
      s.writes[n]? = some (k, payload)
  found : ∀ t k, s.tasks t = some ⟨k, .chtimes⟩ → Stored c s k

theorem calm_pristine (h : s.Pristine) : Calm c s := by
  constructor
  · simp [h.tasks]
  · simp [h.tasks]
  · simp [h.writes]
  · simp [h.tasks]
  · simp [h.files]
  · simp [h.tasks]
  · simp [h.tasks]

/-- The file at the path of a call that does not write is settled, and belongs to the call's
revision. -/
theorem Calm.settled {t : T} {k : Key} {phase : Phase} {f : File UInt8 ℕ} (hc : Calm c s)
    (ht : s.tasks t = some ⟨k, phase⟩) (hw : ∀ payload n offset, phase ≠ .write payload n offset)
    (hf : s.files (thumbnailCachePath c k) = some f) :
    ∃ payload, LastWrite s f k payload ∧ payload ≠ .thumbnail [] ∧ f.Settled := by
  obtain ⟨k', payload, hp, ⟨n, hm, hwr⟩, hmix, hdone⟩ := hc.file _ f hf
  have hmem := List.mem_of_getElem? hwr
  obtain rfl : k' = k := hc.key t _ ht _ hmem hp
  refine ⟨payload, ⟨n, hm, hwr⟩, hc.filled _ hmem, hmix, n, payload.data, hm, ?_⟩
  rcases hdone with hdone | ⟨u, m, offset, hu⟩
  · exact hdone
  · obtain rfl : u = t := hc.one u t _ _ hu ht rfl
    rw [ht] at hu
    cases hu
    exact absurd rfl (hw _ _ _)

/-- A careful action finds the disk undisturbed. -/
theorem Calm.undisturbed {a : Action T} (hc : Calm c s) (hi : Inv c s) (ha : Careful c s a) :
    Undisturbed c s a := by
  cases a with
  | fetchThumbnail t k => trivial
  | kill => trivial
  | run t e =>
    rintro ⟨k, phase⟩ ht
    have ha := ha _ ht
    cases phase with
    | stat =>
      cases e with
      | stat dirSize =>
        intro hsize
        have hdir : s.dirs (thumbnailCachePath c k) = false := ha
        cases hf : s.files (thumbnailCachePath c k) with
        | none => simp [State.size, hf, hdir] at hsize
        | some f =>
          obtain ⟨payload, hl, hne, hs⟩ := hc.settled ht (by simp) hf
          have hcontent := hi.content_eq hf hl hs
          simp only [State.size, hf, Option.some.injEq, List.length_eq_zero_iff] at hsize
          rw [hsize] at hcontent
          cases payload with
          | sentinel => exact ⟨f, hf, hl⟩
          | thumbnail data => exact absurd (congrArg Payload.thumbnail hcontent.symm) hne
      | _ => trivial
    | chtimes =>
      cases e with
      | chtimes => exact hc.found t k ht
      | _ => trivial
    | write payload n offset =>
      cases payload with
      | sentinel => cases e <;> trivial
      | thumbnail data =>
        cases e with
        | close =>
          rintro rfl
          obtain ⟨f, hf, hm, hwr⟩ := hc.writing t k _ n _ ht
          have hwritten := (hi.writing t k _ n _ ht).2 f data hf hm
          obtain ⟨k', payload', -, -, hmix, -⟩ := hc.file _ f hf
          have hne : data ≠ [] := by
            rintro rfl
            exact hc.pending t k _ ht rfl
          exact ⟨f, data, hf, ⟨n, hm, hwr⟩, hne, hmix, n, data, hm, hwritten⟩
        | _ => trivial
    | _ => cases e <;> trivial

/-- Of a payload without bytes nothing is left to be written. -/
theorem Calm.written_eq_zero {t : T} {k : Key} {f : File UInt8 ℕ} {payload : Payload} {n offset : ℕ}
    (hc : Calm c s) (hi : Inv c s) (ht : s.tasks t = some ⟨k, .write payload n offset⟩)
    (hf : s.files (thumbnailCachePath c k) = some f) (hp : payload.data = []) :
    f.written = payload.data.length := by
  obtain ⟨f', hf', hm, -⟩ := hc.writing t k payload n offset ht
  rw [hf] at hf'
  cases hf'
  obtain ⟨-, -, -, -, hmix, -⟩ := hc.file _ f hf
  have hcovered := (hi.sound _ f hf n payload.data hm hmix).covered
  rw [hp] at hcovered ⊢
  exact Nat.le_zero.mp hcovered

theorem Calm.kill (hc : Calm c s) (hi : Inv c s)
    (hk : ∀ t k data n offset, s.tasks t ≠ some ⟨k, .write (.thumbnail data) n offset⟩) :
    Calm c s.kill := by
  refine ⟨by simp [State.kill], by simp [State.kill], hc.filled, by simp [State.kill], ?_,
    by simp [State.kill], by simp [State.kill]⟩
  intro p f hf
  obtain ⟨k, payload, rfl, hl, hmix, hw⟩ := hc.file p f hf
  refine ⟨k, payload, rfl, hl, hmix, .inl ?_⟩
  rcases hw with hw | ⟨u, n, offset, hu⟩
  · exact hw
  · cases payload with
    | sentinel => exact hc.written_eq_zero hi hu hf rfl
    | thumbnail data => exact absurd hu (hk u k data n offset)

variable [DecidableEq T] {t : T} {k : Key}

/-- A call that has not left a file unfinished becomes another one that does not write. -/
theorem Calm.setTask {task : Option Task} (hc : Calm c s)
    (hdone : ∀ k payload n offset f, s.tasks t = some ⟨k, .write payload n offset⟩ →
      s.files (thumbnailCachePath c k) = some f → f.written = payload.data.length)
    (hone : ∀ k phase, task = some ⟨k, phase⟩ → (∀ u task', s.tasks u = some task' →
      thumbnailCachePath c task'.key = thumbnailCachePath c k → u = t) ∧
      ∀ w ∈ s.writes, thumbnailCachePath c w.1 = thumbnailCachePath c k → w.1 = k)
    (hnew : ∀ k phase, task = some ⟨k, phase⟩ → phase.payload ≠ some (.thumbnail []) ∧
      (∀ payload n offset, phase ≠ .write payload n offset) ∧
      (phase = .chtimes → Stored c s k)) : Calm c (s.setTask t task) := by
  constructor
  · intro u v task₁ task₂ hu hv hp
    rcases tasks_setTask hu with ⟨he, ht⟩ | ⟨-, hu'⟩
    · rcases tasks_setTask hv with ⟨he', -⟩ | ⟨-, hv'⟩
      · exact he.trans he'.symm
      · exact he.trans ((hone _ _ ht).1 v _ hv' hp.symm).symm
    · rcases tasks_setTask hv with ⟨he, ht⟩ | ⟨-, hv'⟩
      · exact ((hone _ _ ht).1 u _ hu' hp).trans he.symm
      · exact hc.one u v task₁ task₂ hu' hv' hp
  · intro u task' hu
    rcases tasks_setTask hu with ⟨-, ht⟩ | ⟨-, hu'⟩
    · exact (hone _ _ ht).2
    · exact hc.key u task' hu'
  · exact hc.filled
  · intro u k phase hu
    rcases tasks_setTask hu with ⟨-, ht⟩ | ⟨-, hu'⟩
    · exact (hnew k phase ht).1
    · exact hc.pending u k phase hu'
  · intro p f hf
    obtain ⟨k, payload, rfl, hl, hmix, hw⟩ := hc.file p f hf
    refine ⟨k, payload, rfl, hl, hmix, ?_⟩
    rcases hw with hw | ⟨u, n, offset, hu⟩
    · exact .inl hw
    · by_cases he : u = t
      · subst he
        exact .inl (hdone k payload n offset f hu hf)
      · refine .inr ⟨u, n, offset, ?_⟩
        simpa [State.setTask, he] using hu
  · intro u k payload n offset hu
    rcases tasks_setTask hu with ⟨-, ht⟩ | ⟨-, hu'⟩
    · exact absurd rfl ((hnew _ _ ht).2.1 payload n offset)
    · exact hc.writing u k payload n offset hu'
  · intro u k hu
    rcases tasks_setTask hu with ⟨-, ht⟩ | ⟨-, hu'⟩
    · exact (hnew k _ ht).2.2 rfl
    · exact hc.found u k hu'

/-- A call goes on without writing. -/
theorem Calm.goto {phase phase' : Phase} (hc : Calm c s) (ht : s.tasks t = some ⟨k, phase⟩)
    (hw : ∀ payload n offset, phase ≠ .write payload n offset)
    (hp : phase'.payload ≠ some (.thumbnail []))
    (hw' : ∀ payload n offset, phase' ≠ .write payload n offset)
    (hf : phase' = .chtimes → Stored c s k) : Calm c (s.goto t k phase') := by
  apply hc.setTask
  · intro k' payload n offset f ht'
    rw [ht] at ht'
    cases ht'
    exact absurd rfl (hw payload n offset)
  · intro k' phase'' he
    cases he
    exact ⟨fun u task' hu hpath => hc.one u t _ _ hu ht hpath, hc.key t _ ht⟩
  · intro k' phase'' he
    cases he
    exact ⟨hp, hw', hf⟩

theorem Calm.finish {result : Except String Path} {network : Bool} (hc : Calm c s)
    (hdone : ∀ k payload n offset f, s.tasks t = some ⟨k, .write payload n offset⟩ →
      s.files (thumbnailCachePath c k) = some f → f.written = payload.data.length) :
    Calm c (s.finish t k result network) := by
  have h : Calm c (s.setTask t none) := hc.setTask hdone (by simp) (by simp)
  exact ⟨h.one, h.key, h.filled, h.pending, h.file, h.writing, h.found⟩

/-- The only call for a path writes into the file there. -/
theorem Calm.setFile {phase : Phase} {payload : Payload} {f : File UInt8 ℕ} {n offset : ℕ}
    {more : List (Key × Payload)} (hc : Calm c s) (ht : s.tasks t = some ⟨k, phase⟩)
    (hm : f.maker = some (n, payload.data)) (hmix : f.mixed = false)
    (hwr : (s.writes ++ more)[n]? = some (k, payload)) (hmore : ∀ w ∈ more, w = (k, payload))
    (hne : payload ≠ .thumbnail []) :
    Calm c ({ s.setFile (thumbnailCachePath c k) f with writes := s.writes ++ more }.goto t k
      (.write payload n offset)) := by
  have hother : ∀ {u : T} {task : Task}, s.tasks u = some task → u ≠ t →
      thumbnailCachePath c task.key ≠ thumbnailCachePath c k :=
    fun hu hut hp => hut (hc.one _ t _ _ hu ht hp)
  have hsame : ∀ {p : Path}, p ≠ thumbnailCachePath c k →
      Function.update s.files (thumbnailCachePath c k) (some f) p = s.files p :=
    fun hp => Function.update_of_ne hp _ _
  have hlogged : ∀ {i : ℕ} {w : Key × Payload}, s.writes[i]? = some w →
      (s.writes ++ more)[i]? = some w := fun hw =>
    (List.getElem?_append_left (List.getElem?_eq_some_iff.mp hw).1).trans hw
  constructor
  · intro u v task₁ task₂ hu hv hp
    rcases tasks_setTask hu with ⟨he, ht₁⟩ | ⟨hut, hu'⟩
    · rcases tasks_setTask hv with ⟨he', -⟩ | ⟨hvt, hv'⟩
      · exact he.trans he'.symm
      · cases ht₁
        exact absurd hp.symm (hother hv' hvt)
    · rcases tasks_setTask hv with ⟨-, ht₂⟩ | ⟨-, hv'⟩
      · cases ht₂
        exact absurd hp (hother hu' hut)
      · exact hc.one u v task₁ task₂ hu' hv' hp
  · intro u task hu w hw hp
    rcases tasks_setTask hu with ⟨-, ht'⟩ | ⟨hut, hu'⟩
    · cases ht'
      rcases List.mem_append.mp hw with hw | hw
      · exact hc.key t _ ht w hw hp
      · rw [hmore w hw]
    · rcases List.mem_append.mp hw with hw | hw
      · exact hc.key u task hu' w hw hp
      · rw [hmore w hw] at hp
        exact absurd hp.symm (hother hu' hut)
  · intro w hw
    rcases List.mem_append.mp hw with hw | hw
    · exact hc.filled w hw
    · rw [hmore w hw]
      exact hne
  · intro u k' phase' hu
    rcases tasks_setTask hu with ⟨-, ht'⟩ | ⟨-, hu'⟩
    · cases ht'
      simpa [Phase.payload] using hne
    · exact hc.pending u k' phase' hu'
  · intro p g hg
    by_cases hp : p = thumbnailCachePath c k
    · subst hp
      have hg' : f = g := by simpa [State.goto, State.setTask, State.setFile] using hg
      subst hg'
      exact ⟨k, payload, rfl, ⟨n, hm, hwr⟩, hmix, .inr ⟨t, n, offset, Function.update_self ..⟩⟩
    · have hg' : s.files p = some g := (hsame hp).symm.trans hg
      obtain ⟨k', payload', hk', ⟨i, hm', hwr'⟩, hmix', hw⟩ := hc.file p g hg'
      refine ⟨k', payload', hk', ⟨i, hm', hlogged hwr'⟩, hmix', hw.imp_right ?_⟩
      rintro ⟨u, m, o, hu⟩
      have hut : u ≠ t := by
        rintro rfl
        rw [ht] at hu
        cases hu
        exact hp hk'.symm
      exact ⟨u, m, o, (Function.update_of_ne hut _ _).trans hu⟩
  · intro u k' payload' m o hu
    rcases tasks_setTask hu with ⟨-, ht'⟩ | ⟨hut, hu'⟩
    · cases ht'
      exact ⟨f, Function.update_self .., hm, hwr⟩
    · obtain ⟨g, hg, hm', hwr'⟩ := hc.writing u k' payload' m o hu'
      exact ⟨g, (hsame (hother hu' hut)).trans hg, hm', hlogged hwr'⟩
  · intro u k' hu
    rcases tasks_setTask hu with ⟨-, ht'⟩ | ⟨hut, hu'⟩
    · cases ht'
    · obtain ⟨g, data, hg, ⟨i, hm', hwr'⟩, hdata, hs⟩ := hc.found u k' hu'
      exact ⟨g, data, (hsame (hother hu' hut)).trans hg, ⟨i, hm', hlogged hwr'⟩, hdata, hs⟩

theorem Calm.create {payload : Payload} (hc : Calm c s)
    (ht : s.tasks t = some ⟨k, .create payload⟩) :
    Calm c (s.create t k (thumbnailCachePath c k) payload) := by
  have hne : payload ≠ .thumbnail [] := by
    rintro rfl
    exact hc.pending t k _ ht rfl
  exact hc.setFile ht rfl rfl (by simp) (by simp) hne

theorem Calm.write {payload : Payload} {n offset m : ℕ} {f : File UInt8 ℕ} (hc : Calm c s)
    (ht : s.tasks t = some ⟨k, .write payload n offset⟩)
    (hf : s.files (thumbnailCachePath c k) = some f) :
    Calm c (s.write t k (thumbnailCachePath c k) f payload n offset m) := by
  obtain ⟨f', hf', hm, hwr⟩ := hc.writing t k payload n offset ht
  rw [hf] at hf'
  cases hf'
  obtain ⟨-, -, -, -, hmix, -⟩ := hc.file _ f hf
  have hne : payload ≠ .thumbnail [] := by
    rintro rfl
    exact hc.pending t k _ ht rfl
  have hmix' : (f.write 0 n payload.data offset m).mixed = false := by
    simp [File.write, hm, hmix]
  have h : Calm c ({ s.setFile (thumbnailCachePath c k) (f.write 0 n payload.data offset m) with
      writes := s.writes ++ [] }.goto t k (.write payload n (offset + m))) :=
    hc.setFile ht hm hmix' (by simpa using hwr) (by simp) hne
  simpa [State.write, State.setFile] using h

/-- After a careful action the files are complete or being written as before. -/
theorem Calm.step {a : Action T} {s' : State T} (hc : Calm c s) (hi : Inv c s)
    (ha : Careful c s a) (h : step c s a = some s') : Calm c s' := by
  have logged : ∀ (dirs : Path → Bool) (emptied : List Key) (delivered : List (Key × Bytes)),
      Calm c { s with dirs, emptied, delivered } := fun _ _ _ =>
    ⟨hc.one, hc.key, hc.filled, hc.pending, hc.file, hc.writing, hc.found⟩
  cases step_effect h with
  | @start t k ht =>
    refine hc.setTask (by simp [ht]) ?_ ?_
    · intro k' phase he
      cases he
      exact ⟨fun u task hu hp => absurd hp (ha.1 u task hu), ha.2⟩
    · intro k' phase he
      cases he
      simp [Phase.payload]
  | reject ht _ => exact hc.finish (by simp [ht])
  | @found t k dirSize size ht hs =>
    refine hc.goto ht (by simp) (by simp [Phase.payload]) (by simp) fun _ => ?_
    have hdir : s.dirs (thumbnailCachePath c k) = false := ha _ ht
    cases hf : s.files (thumbnailCachePath c k) with
    | none => simp [State.size, hf, hdir] at hs
    | some f =>
      obtain ⟨payload, hl, hne, hsettled⟩ := hc.settled ht (by simp) hf
      have hcontent := hi.content_eq hf hl hsettled
      simp only [State.size, hf, Option.some.injEq] at hs
      cases payload with
      | sentinel => simp [hcontent, Payload.data] at hs
      | thumbnail data =>
        exact ⟨f, data, hf, hl, fun hd => hne (congrArg Payload.thumbnail hd), hsettled⟩
  | foundEmpty ht _ => exact hc.finish (by simp [ht])
  | hit ht => exact hc.finish (by simp [ht])
  | goes ht hp hp' hch =>
    refine hc.goto ht ?_ (by simp [hp']) ?_ (fun he => absurd he hch)
    · rintro _ _ _ rfl
      cases hp
    · rintro _ _ _ rfl
      cases hp'
  | emptied ht =>
    exact (logged s.dirs _ s.delivered).goto ht (by simp) (by simp [Phase.payload]) (by simp)
      (by simp)
  | @delivered t k block get data ht hd =>
    have hne : data ≠ [] := by
      rintro rfl
      exact ha _ ht hd
    exact (logged s.dirs s.emptied _).goto ht (by simp) (by simpa [Phase.payload] using hne)
      (by simp) (by simp)
  | mkdir dirs => exact logged dirs s.emptied s.delivered
  | made ht =>
    have hp := hc.pending _ _ _ ht
    exact hc.goto ht (by simp) hp (by simp) (by simp)
  | create ht => exact hc.create ht
  | write ht hf _ => exact hc.write ht hf
  | @stored t k data n ht =>
    refine hc.finish fun k' payload n' offset f ht' hf => ?_
    rw [ht] at ht'
    cases ht'
    obtain ⟨f', hf', hm, -⟩ := hc.writing t k _ n _ ht
    rw [hf] at hf'
    cases hf'
    exact (hi.writing t k _ n _ ht).2 f data hf hm
  | fails _ ht hp =>
    refine hc.finish fun k' payload n offset f ht' hf => ?_
    rw [ht] at ht'
    cases ht'
    cases hp
  | nothing ht hp =>
    refine hc.finish fun k' payload n offset f ht' hf => ?_
    rw [ht] at ht'
    cases ht'
    cases payload with
    | sentinel => exact hc.written_eq_zero hi ht hf rfl
    | thumbnail data =>
      obtain rfl := hp data rfl
      exact absurd (ha _ ht) id
  | kill => exact hc.kill hi ha

/-- In a careful run the disk is undisturbed whenever it decides. -/
theorem along_undisturbed (h : s.Pristine) {actions : List (Action T)}
    (ha : Along (step c) (Careful c) s actions) :
    Along (step c) (Undisturbed c) s actions := by
  refine ha.imp (I := fun s => Inv c s ∧ Calm c s) ?_ ?_ ⟨inv_pristine h, calm_pristine h⟩
  · rintro s a s' ⟨hi, hc⟩ ha hs
    exact ⟨hi.step (hc.undisturbed hi ha) hs, hc.step hi ha hs⟩
  · rintro s a ⟨hi, hc⟩ ha
    exact hc.undisturbed hi ha

end Careful

section Runs

/-- As long as the disk is undisturbed when it decides, the cache is honest. -/
theorem always_honest {T : Type} [DecidableEq T] (c : Session) (s : State T) (h : s.Pristine)
    (actions : List (Action T)) (hq : Along (step c) (Undisturbed c) s actions) :
    Always (step c) Honest s actions :=
  always_of_along (fun _ hi => hi.honest) (fun _ _ _ hi hq hs => hi.step hq hs)
    (inv_pristine h) hq

def emptyCache : State ℕ where
  dirs p := p = "/c/thumbnails/l".toList
  files _ := none
  tasks _ := none
  writes := []
  delivered := []
  emptied := []
  returns := []

theorem emptyCache_pristine : emptyCache.Pristine :=
  ⟨fun _ => rfl, fun _ => rfl, rfl, rfl⟩

def session : Session := ⟨"", "", "", "/c".toList⟩

/-- A thumbnail is downloaded up to the point where its file is created. -/
def fetchToCreate (data : Bytes) : List (Action ℕ) :=
  [.fetchThumbnail 0 ⟨"l", "r"⟩, .run 0 (.stat 0),
    .run 0 (.ids "uid" fun _ => .ok ⟨200, .ok [⟨"id", 0⟩]⟩),
    .run 0 (.blocks fun _ _ => .ok ⟨200, .ok [⟨"id", "url", "token"⟩]⟩),
    .run 0 (.download fun _ => .ok ⟨200, .ok data⟩), .run 0 .mkdirAll, .run 0 .create]

/-- The file is written in two pieces and found by the next call. -/
theorem always_honest_refetched : ∃ actions : List (Action ℕ),
    (actions.foldlM (step session) emptyCache).map (fun s => s.returns.map Return.content) =
      some [some [1, 2], some [1, 2]] ∧
    Always (step session) Honest emptyCache actions := by
  refine ⟨fetchToCreate [1, 2] ++ [.run 0 (.write 1), .run 0 (.write 1), .run 0 .close,
    .fetchThumbnail 1 ⟨"l", "r"⟩, .run 1 (.stat 0), .run 1 .chtimes], by decide, ?_⟩
  apply always_honest _ _ emptyCache_pristine
  have hstored : ∀ s : State ℕ, (s.files "/c/thumbnails/l/r".toList =
      some ⟨[1, 2], some (0, [1, 2]), 2, false⟩) →
      s.writes = [(⟨"l", "r"⟩, .thumbnail [1, 2])] → Stored session s ⟨"l", "r"⟩ := by
    intro s hf hw
    have hpath : thumbnailCachePath session ⟨"l", "r"⟩ = "/c/thumbnails/l/r".toList := by decide
    exact ⟨_, [1, 2], hpath ▸ hf, ⟨0, rfl, by rw [hw]; rfl⟩, by decide, rfl, 0, [1, 2], rfl, rfl⟩
  refine .cons trivial rfl <| .cons ?_ rfl <| .cons ?_ rfl <| .cons ?_ rfl <| .cons ?_ rfl <|
    .cons ?_ rfl <| .cons ?_ rfl <| .cons ?_ rfl <| .cons ?_ rfl <| .cons ?_ rfl <|
    .cons trivial rfl <| .cons ?_ rfl <| .cons ?_ rfl trivial
  all_goals rintro _ ⟨⟩
  · intro hsize
    exact absurd hsize (by decide)
  · trivial
  · trivial
  · trivial
  · trivial
  · trivial
  · trivial
  · trivial
  · exact fun _ => hstored _ rfl rfl
  · intro hsize
    exact absurd hsize (by decide)
  · exact hstored _ rfl rfl

/-- The disk is full when the thumbnail is written; the next call takes the empty file for the
server's word that there is none. -/
theorem always_honest_fails : ¬ ∀ (c : Session) (s : State ℕ), s.Pristine →
    ∀ actions, Always (step c) Honest s actions := by
  intro h
  have hrun := h session emptyCache emptyCache_pristine
    (fetchToCreate [1, 2] ++ [.run 0 .fails, .fetchThumbnail 1 ⟨"l", "r"⟩, .run 1 (.stat 0)])
  have hempty := (hrun.last rfl).none ⟨⟨"l", "r"⟩, .ok [], false, none⟩ (.tail _ (.head _))
    (by decide) (by decide) rfl rfl
  cases hempty

end Runs

end ProtonDrive.ThumbnailHonesty
