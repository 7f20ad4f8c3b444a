import ProtonDrive.DriveApi
import ProtonDrive.InPlaceFiles
import ProtonDrive.PartialRuns
import ProtonDrive.SlashPaths

/-!
# The thumbnail cache

The calls of `FetchThumbnail`, cut into the requests and the file operations they make. Calls
interleave between any two of them, each may fail, and the process may be killed and started
again; the disk stays as it is. A file of no bytes at a cache path stands for a revision that
has no thumbnail, but such a file is also what every write starts with.
-/

namespace ProtonDrive.Thumbnails
open SlashPaths DriveApi InPlaceFiles PartialRuns

section Requests

/-- What `FetchThumbnail` reads of the session; `base` is the path from `cacheBaseFor`. -/
structure Session where
  apiBase : String
  shareID : String
  volumeID : String
  base : Path

structure Response (β : Type) where
  status : ℕ
  /-- The error is that of reading the body to its end, or of decoding it. -/
  body : Except String β

/-- What becomes of a request: an error, or a response. -/
abbrev Answer (β : Type) := Except String (Response β)

structure RevisionThumbnail where
  thumbnailID : String
  type : ℤ

structure ThumbnailBlockInfo where
  thumbnailID : String
  bareURL : String
  token : String

variable {β : Type}

/-- The body of a response with status 200. -/
def okBody (endpoint : String) (answer : Answer β) : Except String β :=
  match answer with
  | .error e => .error e
  | .ok resp =>
    if resp.status = 200 then resp.body
    else .error (endpoint ++ ": HTTP " ++ toString resp.status)

def revisionThumbnailIDs (c : Session) (get : String → Answer (List RevisionThumbnail))
    (linkID : LinkID) (revisionID : RevisionID) : Except String (List String) :=
  (okBody "revision endpoint" (get (c.apiBase ++ "/drive/shares/" ++ c.shareID ++ "/files/" ++
    linkID ++ "/revisions/" ++ revisionID ++ "?FromBlockIndex=1&PageSize=1"))).map
      fun thumbnails => thumbnails.map RevisionThumbnail.thumbnailID

def thumbnailBlocks (c : Session) (post : String → List String → Answer (List ThumbnailBlockInfo))
    (thumbnailIDs : List String) : Except String (List ThumbnailBlockInfo) :=
  okBody "thumbnails endpoint"
    (post (c.apiBase ++ "/drive/volumes/" ++ c.volumeID ++ "/thumbnails") thumbnailIDs)

def downloadThumbnailBlock (get : String → Answer Bytes) (block : ThumbnailBlockInfo) :
    Except String Bytes :=
  okBody "block storage" (get (block.bareURL ++ "/" ++ block.token))

end Requests

section Calls

/-- A link and one of its revisions. -/
structure Key where
  linkID : LinkID
  revisionID : RevisionID

def thumbnailCachePath (c : Session) (k : Key) : Path :=
  join [c.base, "thumbnails".toList, k.linkID.toList, k.revisionID.toList]

theorem thumbnailCachePath_ne_nil (c : Session) (k : Key) : thumbnailCachePath c k ≠ [] :=
  join_ne_nil ⟨"thumbnails".toList, by simp, by decide⟩

/-- What `writeThumbnailCache` is called with: no bytes, for a revision without a thumbnail, or
what was downloaded. -/
inductive Payload
  | sentinel
  | thumbnail (data : Bytes)

def Payload.data : Payload → Bytes
  | .sentinel => []
  | .thumbnail data => data

/-- The operation of `FetchThumbnail` that is next. -/
inductive Phase
  | stat
  | chtimes
  | ids
  | blocks (ids : List String)
  | download (block : ThumbnailBlockInfo)
  | mkdirAll (payload : Payload)
  | create (payload : Payload)
  | write (payload : Payload) (serial offset : ℕ)

/-- What the phase has left to store. -/
def Phase.payload : Phase → Option Payload
  | .mkdirAll payload | .create payload | .write payload _ _ => some payload
  | _ => none

structure Task where
  key : Key
  phase : Phase

/-- What a call returned, whether it had asked the server before, and what the file at the
returned path held at that moment. -/
structure Return where
  key : Key
  result : Except String Path
  network : Bool
  content : Option Bytes

/-- The cache directory and the calls of the running process, with a record of all writes, of
what the server has answered and of what was returned. A file tells which write has created or
truncated it last by the number of that write. -/
structure State (T : Type) where
  dirs : Path → Bool
  files : Path → Option (File UInt8 ℕ)
  tasks : T → Option Task
  writes : List (Key × Payload)
  delivered : List (Key × Bytes)
  emptied : List Key
  returns : List Return

variable {T : Type} [DecidableEq T]

namespace State

/-- The size that `os.Stat` finds; that of a directory is up to the file system. -/
def size (s : State T) (dirSize : ℕ) (p : Path) : Option ℕ :=
  match s.files p with
  | some f => some f.content.length
  | none => if s.dirs p = true then some dirSize else none

def setTask (s : State T) (t : T) (task : Option Task) : State T :=
  { s with tasks := Function.update s.tasks t task }

def goto (s : State T) (t : T) (k : Key) (phase : Phase) : State T :=
  s.setTask t (some ⟨k, phase⟩)

def finish (s : State T) (t : T) (k : Key) (result : Except String Path) (network : Bool) :
    State T :=
  { s.setTask t none with
    returns := s.returns ++ [⟨k, result, network, match result with
      | .error _ => none
      | .ok p => (s.files p).map File.content⟩] }

/-- Every call is lost. -/
def kill (s : State T) : State T := { s with tasks := fun _ => none }

def setFile (s : State T) (p : Path) (f : File UInt8 ℕ) : State T :=
  { s with files := Function.update s.files p (some f) }

/-- The open of `os.WriteFile`: a file at the path is truncated, else one is created. -/
def create (s : State T) (t : T) (k : Key) (path : Path) (payload : Payload) : State T :=
  { s.setFile path (.made s.writes.length payload.data) with
    writes := s.writes ++ [(k, payload)] }.goto t k (.write payload s.writes.length 0)

/-- The next `n` bytes are written into the file at the path. -/
def write (s : State T) (t : T) (k : Key) (path : Path) (f : File UInt8 ℕ) (payload : Payload)
    (serial offset n : ℕ) : State T :=
  (s.setFile path (f.write 0 serial payload.data offset n)).goto t k
    (.write payload serial (offset + n))

end State

/-- What the file system or the server makes of the next operation of a call. -/
inductive Event
  | stat (dirSize : ℕ)
  | chtimes
  | ids (uid : String) (get : String → Answer (List RevisionThumbnail))
  | blocks (post : String → List String → Answer (List ThumbnailBlockInfo))
  | download (get : String → Answer Bytes)
  | mkdir (p : Path)
  | mkdirAll
  | create
  | write (n : ℕ)
  | close
  | fails

/-- A call goes on, unless the event is not one for its next operation. -/
def advance (c : Session) (s : State T) (t : T) (k : Key) (phase : Phase) (e : Event) :
    Option (State T) :=
  let path := thumbnailCachePath c k
  match phase, e with
  | .stat, .stat dirSize => some (match s.size dirSize path with
    | none => s.goto t k .ids
    | some 0 => s.finish t k (.ok []) false
    | some _ => s.goto t k .chtimes)
  | .stat, .fails => some (s.goto t k .ids)
  -- whether the date could be set is not looked at
  | .chtimes, .chtimes => some (s.finish t k (.ok path) false)
  | .ids, .ids uid get => some (
    if uid = "" then s.finish t k (.error "thumbnail fetch: no active auth token") false
    else match revisionThumbnailIDs c get k.linkID k.revisionID with
    | .error e => s.finish t k (.error ("thumbnail fetch: revision IDs: " ++ e)) true
    | .ok [] => { s with emptied := s.emptied ++ [k] }.goto t k (.mkdirAll .sentinel)
    | .ok ids => s.goto t k (.blocks ids))
  | .blocks ids, .blocks post => some (match thumbnailBlocks c post ids with
    | .error e => s.finish t k (.error ("thumbnail fetch: blocks: " ++ e)) true
    | .ok [] => s.finish t k (.ok []) true
    | .ok (block :: _) => s.goto t k (.download block))
  | .download block, .download get => some (match downloadThumbnailBlock get block with
    | .error e => s.finish t k (.error ("thumbnail fetch: download: " ++ e)) true
    | .ok data =>
      { s with delivered := s.delivered ++ [(k, data)] }.goto t k (.mkdirAll (.thumbnail data)))
  -- one of the directories above the path
  | .mkdirAll _, .mkdir p =>
    if p ∈ List.iterate dir (dir path) path.length ∧ s.dirs (dir p) = true ∧
        (s.files p).isNone then
      some { s with dirs := Function.update s.dirs p true }
    else none
  | .mkdirAll payload, .mkdirAll =>
    if s.dirs (dir path) = true then some (s.goto t k (.create payload)) else none
  | .create payload, .create =>
    if s.dirs path = false ∧ s.dirs (dir path) = true then some (s.create t k path payload)
    else none
  | .write payload serial offset, .write n => match s.files path with
    | some f =>
      if 0 < n ∧ offset + n ≤ payload.data.length then
        some (s.write t k path f payload serial offset n)
      else none
    | none => none
  | .write payload _ offset, .close =>
    if offset = payload.data.length then
      some (s.finish t k (match payload with
        | .sentinel => .ok []
        | .thumbnail _ => .ok path) true)
    else none
  -- an error of `writeThumbnailCache` is logged at most
  | .mkdirAll _, .fails | .create _, .fails | .write _ _ _, .fails =>
    some (s.finish t k (.ok []) true)
  | _, _ => none

inductive Action (T : Type)
  | fetchThumbnail (t : T) (k : Key)
  | run (t : T) (e : Event)
  | kill

/-- One action, unless it is not possible in the state. -/
def step (c : Session) (s : State T) : Action T → Option (State T)
  | .fetchThumbnail t k =>
    if (s.tasks t).isSome then none
    else if k.linkID = "" ∨ k.revisionID = "" then some (s.finish t k (.ok []) false)
    else some (s.goto t k .stat)
  | .run t e => (s.tasks t).bind fun task => advance c s t task.key task.phase e
  | .kill => some s.kill

/-- A cache directory as a first process finds it. -/
structure State.Pristine (s : State T) : Prop where
  files : ∀ p, s.files p = none
  tasks : ∀ t, s.tasks t = none
  writes : s.writes = []
  returns : s.returns = []

end Calls

section Honesty

variable {T : Type}

/-- A returned path leads to a whole thumbnail that the server delivered for the revision, and
without asking the server only a revision whose list it has answered to be empty is reported to
have none. -/
structure Honest (s : State T) : Prop where
  path : ∀ r ∈ s.returns, ∀ p, r.result = .ok p → p ≠ [] →
    ∃ data, data ≠ [] ∧ (r.key, data) ∈ s.delivered ∧ r.content = some data
  none : ∀ r ∈ s.returns, r.key.linkID ≠ "" → r.key.revisionID ≠ "" → r.result = .ok [] →
    r.network = false → r.key ∈ s.emptied

/-- The write that created or truncated the file last stored this payload for this revision. -/
def LastWrite (s : State T) (f : File UInt8 ℕ) (k : Key) (payload : Payload) : Prop :=
  ∃ n, f.maker = some (n, payload.data) ∧ s.writes[n]? = some (k, payload)

/-- The last write to the cache path stored a thumbnail of the revision that is not empty; it has
written all of it, and since then no write of other data has written into it. -/
def Stored (c : Session) (s : State T) (k : Key) : Prop :=
  ∃ f data, s.files (thumbnailCachePath c k) = some f ∧ LastWrite s f k (.thumbnail data) ∧
    data ≠ [] ∧ f.Settled

/-- The last write to the cache path stored that the revision has no thumbnail. -/
def StoredNone (c : Session) (s : State T) (k : Key) : Prop :=
  ∃ f, s.files (thumbnailCachePath c k) = some f ∧ LastWrite s f k .sentinel

/-- What is on the disk when it decides what a call returns. -/
def Undisturbed (c : Session) (s : State T) : Action T → Prop
  | .run t e => ∀ task, s.tasks t = some task → match task.phase, e with
    | .stat, .stat dirSize =>
      s.size dirSize (thumbnailCachePath c task.key) = some 0 → StoredNone c s task.key
    | .chtimes, .chtimes => Stored c s task.key
    | .write (.thumbnail data) _ offset, .close => offset = data.length → Stored c s task.key
    | _, _ => True
  | _ => True

end Honesty

section Effects

variable {T : Type} [DecidableEq T]

/-- What an action does. -/
inductive Effect (c : Session) (s : State T) : Action T → State T → Prop
  | start {t : T} (k : Key) (ht : s.tasks t = none) :
      Effect c s (.fetchThumbnail t k) (s.goto t k .stat)
  | reject {t : T} {k : Key} (ht : s.tasks t = none)
      (hk : k.linkID = "" ∨ k.revisionID = "") :
      Effect c s (.fetchThumbnail t k) (s.finish t k (.ok []) false)
  | found {t : T} {k : Key} {dirSize size : ℕ} (ht : s.tasks t = some ⟨k, .stat⟩)
      (hs : s.size dirSize (thumbnailCachePath c k) = some (size + 1)) :
      Effect c s (.run t (.stat dirSize)) (s.goto t k .chtimes)
  | foundEmpty {t : T} {k : Key} {dirSize : ℕ} (ht : s.tasks t = some ⟨k, .stat⟩)
      (hs : s.size dirSize (thumbnailCachePath c k) = some 0) :
      Effect c s (.run t (.stat dirSize)) (s.finish t k (.ok []) false)
  | hit {t : T} {k : Key} (ht : s.tasks t = some ⟨k, .chtimes⟩) :
      Effect c s (.run t .chtimes) (s.finish t k (.ok (thumbnailCachePath c k)) false)
  | goes {t : T} {k : Key} {phase phase' : Phase} {e : Event}
      (ht : s.tasks t = some ⟨k, phase⟩) (hp : phase.payload = none) (hp' : phase'.payload = none)
      (hc : phase' ≠ .chtimes) : Effect c s (.run t e) (s.goto t k phase')
  | emptied {t : T} {k : Key} {e : Event} (ht : s.tasks t = some ⟨k, .ids⟩) :
      Effect c s (.run t e)
        ({ s with emptied := s.emptied ++ [k] }.goto t k (.mkdirAll .sentinel))
  | delivered {t : T} {k : Key} {block : ThumbnailBlockInfo} {get : String → Answer Bytes}
      {data : Bytes} (ht : s.tasks t = some ⟨k, .download block⟩)
      (hd : downloadThumbnailBlock get block = .ok data) :
      Effect c s (.run t (.download get))
        ({ s with delivered := s.delivered ++ [(k, data)] }.goto t k
          (.mkdirAll (.thumbnail data)))
  | mkdir {a : Action T} (dirs : Path → Bool) : Effect c s a { s with dirs }
  | made {t : T} {k : Key} {payload : Payload} {e : Event}
      (ht : s.tasks t = some ⟨k, .mkdirAll payload⟩) :
      Effect c s (.run t e) (s.goto t k (.create payload))
  | create {t : T} {k : Key} {payload : Payload} {e : Event}
      (ht : s.tasks t = some ⟨k, .create payload⟩) :
      Effect c s (.run t e) (s.create t k (thumbnailCachePath c k) payload)
  | write {t : T} {k : Key} {payload : Payload} {serial offset n : ℕ} {f : File UInt8 ℕ}
      {e : Event} (ht : s.tasks t = some ⟨k, .write payload serial offset⟩)
      (hf : s.files (thumbnailCachePath c k) = some f)
      (hn : offset + n ≤ payload.data.length) :
      Effect c s (.run t e)
        (s.write t k (thumbnailCachePath c k) f payload serial offset n)
  | stored {t : T} {k : Key} {data : Bytes} {serial : ℕ}
      (ht : s.tasks t = some ⟨k, .write (.thumbnail data) serial data.length⟩) :
      Effect c s (.run t .close) (s.finish t k (.ok (thumbnailCachePath c k)) true)
  | fails {t : T} {k : Key} {phase : Phase} {e : String} {ev : Event} (network : Bool)
      (ht : s.tasks t = some ⟨k, phase⟩) (hp : phase.payload = none) :
      Effect c s (.run t ev) (s.finish t k (.error e) network)
  | nothing {t : T} {k : Key} {phase : Phase} {e : Event} (ht : s.tasks t = some ⟨k, phase⟩)
      (hp : ∀ data, phase.payload = some (.thumbnail data) → e = .fails) :
      Effect c s (.run t e) (s.finish t k (.ok []) true)
  | kill : Effect c s .kill s.kill

theorem advance_effect {c : Session} {s s' : State T} {t : T} {k : Key} {phase : Phase}
    {e : Event} (ht : s.tasks t = some ⟨k, phase⟩) (h : advance c s t k phase e = some s') :
    Effect c s (.run t e) s' := by
  cases phase with
  | stat =>
    cases e <;> simp only [advance, Option.some.injEq, reduceCtorEq] at h
    case stat dirSize =>
      subst h
      cases hs : s.size dirSize (thumbnailCachePath c k) with
      | none => exact .goes ht rfl rfl (by simp)
      | some size =>
        cases size with
        | zero => exact .foundEmpty ht hs
        | succ size => exact .found ht hs
    case fails =>
      subst h
      exact .goes ht rfl rfl (by simp)
  | chtimes =>
    cases e <;> simp only [advance, Option.some.injEq, reduceCtorEq] at h
    subst h
    exact .hit ht
  | ids =>
    cases e <;> simp only [advance, Option.some.injEq, reduceCtorEq] at h
    case ids uid get =>
      subst h
      split_ifs
      · exact .fails _ ht rfl
      · cases hr : revisionThumbnailIDs c get k.linkID k.revisionID with
        | error e => exact .fails _ ht rfl
        | ok ids =>
          cases ids with
          | nil => exact .emptied ht
          | cons id ids => exact .goes ht rfl rfl (by simp)
  | blocks ids =>
    cases e <;> simp only [advance, Option.some.injEq, reduceCtorEq] at h
    case blocks post =>
      subst h
      cases hr : thumbnailBlocks c post ids with
      | error e => exact .fails _ ht rfl
      | ok blocks =>
        cases blocks with
        | nil => exact .nothing ht (by simp [Phase.payload])
        | cons block blocks => exact .goes ht rfl rfl (by simp)
  | download block =>
    cases e <;> simp only [advance, Option.some.injEq, reduceCtorEq] at h
    case download get =>
      subst h
      cases hr : downloadThumbnailBlock get block with
      | error e => exact .fails _ ht rfl
      | ok data => exact .delivered ht hr
  | mkdirAll payload =>
    cases e <;> simp only [advance, Option.some.injEq, reduceCtorEq] at h
    case mkdir p =>
      split_ifs at h
      cases h
      exact .mkdir _
    case mkdirAll =>
      split_ifs at h
      cases h
      exact .made ht
    case fails =>
      subst h
      exact .nothing ht fun _ _ => rfl
  | create payload =>
    cases e <;> simp only [advance, Option.some.injEq, reduceCtorEq] at h
    case create =>
      split_ifs at h
      cases h
      exact .create ht
    case fails =>
      subst h
      exact .nothing ht fun _ _ => rfl
  | write payload serial offset =>
    cases e <;> simp only [advance, Option.some.injEq, reduceCtorEq] at h
    case write n =>
      cases hf : s.files (thumbnailCachePath c k) with
      | none => simp [hf] at h
      | some f =>
        rw [hf] at h
        dsimp only at h
        split_ifs at h with hn
        cases h
        exact .write ht hf hn.2
    case close =>
      split_ifs at h with ho
      cases h
      cases payload with
      | sentinel => exact .nothing ht (by simp [Phase.payload])
      | thumbnail data =>
        subst ho
        exact .stored ht
    case fails =>
      subst h
      exact .nothing ht fun _ _ => rfl

theorem step_effect {c : Session} {s s' : State T} {a : Action T} (h : step c s a = some s') :
    Effect c s a s' := by
  cases a with
  | fetchThumbnail t k =>
    simp only [step] at h
    split_ifs at h with hb hk
    · cases h
      exact .reject (by simpa using hb) hk
    · cases h
      exact .start k (by simpa using hb)
  | run t e =>
    obtain ⟨⟨k, phase⟩, ht, h⟩ := Option.bind_eq_some_iff.mp h
    exact advance_effect ht h
  | kill =>
    cases h
    exact .kill

end Effects

end ProtonDrive.Thumbnails
