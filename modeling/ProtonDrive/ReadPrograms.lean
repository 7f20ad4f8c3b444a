import ProtonDrive.Programs
import ProtonDrive.FileReads

/-!
# File reads as programs

`ReadFileContent` and the `ReadFile` handler with each API call, each decryption and each use of
the block cache as a query. The block cache is a pointer that may be nil: a method call on it
answers nothing when it is, and what the program does then is a crash; so is reading the revision
of a link without file properties. Run on a session, the programs do what the functions of the
session do, and never crash over the block cache.
-/

namespace ProtonDrive.ReadPrograms
open SlashPaths FallibleSteps DriveApi Programs Programs.Prog FileReads
open DriveSession hiding Step

variable {KR : Type}

inductive ReadQuery (KR : Type)
  | stat (p : Path)
  | getRevision (linkID : LinkID) (revID : RevisionID) (fromBlockIndex pageSize : ℤ)
  | fetchBlock (block : Block)
  | decrypt (block : Block) (sessionKey : SessionKey) (enc : Bytes)
  | hasBlocks
  | getBlock (linkID : LinkID) (revID : RevisionID) (idx : ℤ)
  | putBlock (linkID : LinkID) (revID : RevisionID) (idx : ℤ) (data : Bytes)

/-- Calls on the block cache have no answer when it is nil. -/
@[reducible] def ReadAnswer : ReadQuery KR → Type
  | .stat _ => Except GoError (Link × KR)
  | .getRevision _ _ _ _ => Except GoError Revision
  | .fetchBlock _ => Except GoError Bytes
  | .decrypt _ _ _ => Option Bytes
  | .hasBlocks => Bool
  | .getBlock _ _ _ => Option (Option Bytes)
  | .putBlock _ _ _ _ => Option Unit

/-- How a read ends without data: with an error, or with a crash of the helper over the block
cache or over file properties that are nil. -/
inductive Fault (ε : Type)
  | go (e : ε)
  | nilBlocks
  | nilFileProperties
  deriving DecidableEq, Repr

abbrev ReadOp (KR ε α : Type) := Prog (Fault ε) (ReadQuery KR) ReadAnswer α

section Programs

variable {ε α : Type}

def ask (q : ReadQuery KR) : ReadOp KR ε (ReadAnswer q) := query q

/-- Go on with the answer of a call on the block cache. -/
def deref : Option α → ReadOp KR ε α
  | some a => pure a
  | none => .fail .nilBlocks

/-- `s.blocks != nil`, and a look-up. -/
def lookupBlock (linkID : LinkID) (revID : RevisionID) (idx : ℤ) : ReadOp KR ε (Option Bytes) := do
  if ← ask .hasBlocks then ask (.getBlock linkID revID idx) >>= deref else pure none

/-- `s.blocks != nil`, and a store whose failure is only logged. -/
def keepBlock (linkID : LinkID) (revID : RevisionID) (idx : ℤ) (data : Bytes) :
    ReadOp KR ε Unit := do
  if ← ask .hasBlocks then ask (.putBlock linkID revID idx data) >>= deref else pure ()

/-- The loop of `readFromCache`, which tested the pointer before. -/
def readCached (linkID : LinkID) (revID : RevisionID) :
    ℕ → ℤ → Bytes → ReadOp KR GoError Bytes
  | 0, _, buf => pure buf
  | n + 1, idx, buf => do
    match ← ask (.getBlock linkID revID idx) >>= deref with
    | none => .fail (.go .offline)
    | some data => readCached linkID revID n (idx + 1) (buf ++ data)

def readFromCache (linkID : LinkID) (revID : RevisionID) (fileSize offset length : ℤ) :
    ReadOp KR GoError Bytes := do
  if ← ask .hasBlocks then
    let startBlock0 := offset.tdiv protonBlockSize
    let endByte := if 0 < length ∧ wrap64 (offset + length) < fileSize
      then wrap64 (offset + length) else fileSize
    let endBlock0 := (dec64 endByte).tdiv protonBlockSize
    let buf ← readCached linkID revID (endBlock0 - startBlock0 + 1).toNat startBlock0 []
    pure (sliceRange buf startBlock0 offset length)
  else .fail (.go .offline)

/-- What the loop of `ReadFileContent` appends for a block. -/
def readBlock (sessionKey : SessionKey) (linkID : LinkID) (revID : RevisionID) (block : Block) :
    ReadOp KR GoError Bytes := do
  match ← lookupBlock linkID revID (block.index - 1) with
  | some cached => pure cached
  | none =>
    match ← ask (.fetchBlock block) with
    | .error e => .fail (.go (if isOfflineError e then .offline else e))
    | .ok enc =>
      match ← ask (.decrypt block sessionKey enc) with
      | none => .fail (.go .crypto)
      | some plain =>
        keepBlock linkID revID (block.index - 1) plain
        pure plain

def readBlocks (sessionKey : SessionKey) (linkID : LinkID) (revID : RevisionID) :
    List Block → Bytes → ReadOp KR GoError Bytes
  | [], buf => pure buf
  | block :: blocks, buf => do
    let data ← readBlock sessionKey linkID revID block
    readBlocks sessionKey linkID revID blocks (buf ++ data)

variable (C : Crypto KR)

def readFileContent (link : Link) (parentKR : KR) (offset length : ℤ) :
    ReadOp KR GoError Bytes :=
  match link.fileProperties with
  | none => .fail .nilFileProperties
  | some props =>
    let revID := props.activeRevision.id
    match C.getKeyRing link parentKR with
    | none => .fail (.go .crypto)
    | some nodeKR => match C.getSessionKey link nodeKR with
      | none => .fail (.go .crypto)
      | some sessionKey => do
        let startBlock0 := offset.tdiv protonBlockSize
        match ← ask (.getRevision link.linkID revID (startBlock0 + 1) revisionPageSize) with
        | .error e =>
          if isOfflineError e then readFromCache link.linkID revID link.size offset length
          else .fail (.go e)
        | .ok rev =>
          let buf ← readBlocks sessionKey link.linkID revID rev.blocks []
          pure (sliceRange buf startBlock0 offset length)

/-- The error of the handler for an error of `ReadFileContent`. -/
def contentError : GoError → HandlerError
  | .offline => .offline "network unreachable and file not in cache"
  | e => .internal e

/-- The `ReadFile` handler, for a session that is logged in. -/
def readFile (path : Path) (offset length : ℤ) : ReadOp KR HandlerError ReadResult := do
  match ← ask (.stat path) with
  | .error e => .fail (.go (.notFound e))
  | .ok (link, parentKR) =>
    if link.type ≠ .file then .fail (.go (.invalidArg "not a file"))
    else
      let data ← (readFileContent C link parentKR offset length).mapError fun
        | .go e => .go (contentError e)
        | .nilBlocks => .nilBlocks
        | .nilFileProperties => .nilFileProperties
      pure (readResult length data)

end Programs

section Handler

variable (C : Crypto KR) (w : World)

/-- Every query as the session and its world answer it. -/
def exec : (q : ReadQuery KR) → Session KR → ReadAnswer q × Session KR
  | .stat p, s => ((s.stat C w p).result, (s.stat C w p).state)
  | .getRevision linkID revID from' pageSize, s =>
    let o := s.callAPI w fun srv => srv.revision linkID revID from' pageSize
    (o.result, o.state)
  | .fetchBlock b, s =>
    let o := s.callAPI w fun srv => srv.block b.bareURL b.token
    (o.result, o.state)
  | .decrypt _ sessionKey enc, s => (C.decrypt sessionKey enc, s)
  | .hasBlocks, s => (s.blocks.isSome, s)
  | .getBlock linkID revID idx, s => match s.blocks with
    | none => (none, s)
    | some _ =>
      let r := cachedBlock w linkID revID idx s
      (some r.1, r.2)
  | .putBlock linkID revID idx data, s => match s.blocks with
    | none => (none, s)
    | some _ => (some (), storeBlock w linkID revID idx data s)

end Handler

section Agreement

variable {C : Crypto KR} {w : World} {ε α : Type}

theorem run_ask (q : ReadQuery KR) (f : ReadAnswer q → ReadOp KR ε α) (s : Session KR) :
    (ask q >>= f).run (exec C w) s = (f (exec C w q s).1).run (exec C w) (exec C w q s).2 := rfl

theorem run_lookupBlock (linkID : LinkID) (revID : RevisionID) (idx : ℤ) (s : Session KR) :
    (lookupBlock linkID revID idx : ReadOp KR ε _).run (exec C w) s =
      ⟨.ok (cachedBlock w linkID revID idx s).1, (cachedBlock w linkID revID idx s).2⟩ := by
  rw [lookupBlock, run_ask, exec]
  dsimp only
  cases hb : s.blocks with
  | none =>
    rw [cachedBlock, hb]
    rfl
  | some bc =>
    rw [if_pos Option.isSome_some, run_ask, exec, hb]
    rfl

theorem run_keepBlock (linkID : LinkID) (revID : RevisionID) (idx : ℤ) (data : Bytes)
    (s : Session KR) : (keepBlock linkID revID idx data : ReadOp KR ε _).run (exec C w) s =
      ⟨.ok (), storeBlock w linkID revID idx data s⟩ := by
  rw [keepBlock, run_ask, exec]
  dsimp only
  cases hb : s.blocks with
  | none =>
    rw [storeBlock, hb]
    rfl
  | some bc =>
    rw [if_pos Option.isSome_some, run_ask, exec, hb]
    rfl

/-- A look-up leaves the pointer as it is. -/
theorem cachedBlock_blocks {bc : BlockCache.Cache} {s : Session KR} (hb : s.blocks = some bc)
    (linkID : LinkID) (revID : RevisionID) (idx : ℤ) :
    ∃ bc', (cachedBlock w linkID revID idx s).2.blocks = some bc' := by
  rw [cachedBlock, hb]
  exact ⟨_, rfl⟩

theorem run_readCached (linkID : LinkID) (revID : RevisionID) (n : ℕ) (idx : ℤ) (buf : Bytes)
    {s : Session KR} {bc : BlockCache.Cache} (hb : s.blocks = some bc) :
    (readCached linkID revID n idx buf).run (exec C w) s =
      (FileReads.readCached w linkID revID n idx buf s).mapError .go := by
  induction n generalizing idx buf s bc with
  | zero => rfl
  | succ n ih =>
    obtain ⟨bc', hb'⟩ := cachedBlock_blocks (w := w) hb linkID revID idx
    have hget : (ask (.getBlock linkID revID idx) >>= deref : ReadOp KR GoError _).run
        (exec C w) s = ⟨.ok (cachedBlock w linkID revID idx s).1,
          (cachedBlock w linkID revID idx s).2⟩ := by
      rw [run_ask, exec, hb]
      rfl
    rw [readCached, run_bind, hget, FileReads.readCached, Outcome.andThen_ok]
    rcases hc : cachedBlock w linkID revID idx s with ⟨_ | data, s'⟩
    · rfl
    · rw [hc] at hb'
      exact ih (idx + 1) (buf ++ data) hb'

theorem run_readFromCache (linkID : LinkID) (revID : RevisionID)
    (fileSize offset length : ℤ) (s : Session KR) :
    (readFromCache linkID revID fileSize offset length).run (exec C w) s =
      (FileReads.readFromCache w linkID revID fileSize offset length s).mapError .go := by
  rw [readFromCache, run_ask, exec, FileReads.readFromCache]
  dsimp only
  cases hb : s.blocks with
  | none => rfl
  | some bc =>
    rw [if_pos Option.isSome_some, run_bind, run_readCached _ _ _ _ _ hb]
    generalize FileReads.readCached w linkID revID _ _ [] s = o
    rcases o with ⟨e | buf, s'⟩ <;> rfl

theorem run_readBlocks (sessionKey : SessionKey) (linkID : LinkID) (revID : RevisionID)
    (blocks : List Block) (buf : Bytes) (s : Session KR) :
    (readBlocks sessionKey linkID revID blocks buf).run (exec C w) s =
      (FileReads.readBlocks C w sessionKey linkID revID blocks buf s).mapError .go := by
  induction blocks generalizing buf s with
  | nil => rfl
  | cons b blocks ih =>
    rw [readBlocks, run_bind, readBlock, run_bind, run_lookupBlock, FileReads.readBlocks,
      Outcome.andThen_ok]
    rcases cachedBlock w linkID revID (b.index - 1) s with ⟨_ | cached, s₁⟩
    · dsimp only
      rw [run_ask, exec]
      rcases s₁.callAPI w fun srv => srv.block b.bareURL b.token with ⟨e | enc, s₂⟩
      · rfl
      · dsimp only
        rw [run_ask, exec]
        simp only [Outcome.recover_ok, Outcome.andThen_ok]
        cases C.decrypt sessionKey enc with
        | none => rfl
        | some plain =>
          dsimp only
          rw [run_bind, run_keepBlock]
          exact ih (buf ++ plain) _
    · exact ih (buf ++ cached) s₁

/-- The functions of the session return the crash over file properties as an error. -/
def Fault.ofContent : GoError → Fault GoError
  | .nilDereference => .nilFileProperties
  | e => .go e

def Fault.ofHandler : HandlerError → Fault HandlerError
  | .internal .nilDereference => .nilFileProperties
  | e => .go e

/-- A step that has no such crash to return. -/
def Sound (o : DriveSession.Step KR α) : Prop :=
  o.Sat (fun _ _ => True) (fun e _ => e ≠ .nilDereference)

theorem mapError_ofContent {o : DriveSession.Step KR α} (h : Sound o) :
    o.mapError Fault.go = o.mapError Fault.ofContent := by
  rcases o with ⟨e | a, s⟩
  · cases e with
    | nilDereference => exact absurd rfl h
    | api a | crypto | notFound p | offline => rfl
  · rfl

theorem callAPI_sound (s : Session KR) (answer : Server → Option α) :
    Sound (s.callAPI w answer) := by
  rcases Session.callAPI_cases w s answer with ⟨a, -, -, h⟩ | ⟨e, -, h⟩
  · rw [h]
    exact trivial
  · rw [h]
    exact GoError.noConfusion

theorem readCached_sound (linkID : LinkID) (revID : RevisionID) (n : ℕ) (idx : ℤ) (buf : Bytes)
    (s : Session KR) : Sound (FileReads.readCached w linkID revID n idx buf s) := by
  induction n generalizing idx buf s with
  | zero => exact trivial
  | succ n ih =>
    rw [FileReads.readCached]
    rcases cachedBlock w linkID revID idx s with ⟨_ | data, s'⟩
    · exact GoError.noConfusion
    · exact ih _ _ s'

theorem readFromCache_sound (linkID : LinkID) (revID : RevisionID) (fileSize offset length : ℤ)
    (s : Session KR) : Sound (FileReads.readFromCache w linkID revID fileSize offset length s) := by
  rw [FileReads.readFromCache]
  split
  · exact GoError.noConfusion
  · exact (readCached_sound _ _ _ _ _ s).andThen fun _ _ _ => trivial

theorem readBlocks_sound (sessionKey : SessionKey) (linkID : LinkID) (revID : RevisionID)
    (blocks : List Block) (buf : Bytes) (s : Session KR) :
    Sound (FileReads.readBlocks C w sessionKey linkID revID blocks buf s) := by
  induction blocks generalizing buf s with
  | nil => exact trivial
  | cons b blocks ih =>
    rw [FileReads.readBlocks]
    rcases cachedBlock w linkID revID (b.index - 1) s with ⟨_ | cached, s₁⟩
    · refine Outcome.Sat.andThen (Outcome.Sat.recover (callAPI_sound s₁ _) fun e s₂ he => ?_)
        fun enc s₂ _ => ?_
      · by_cases ho : isOfflineError e = true
        · rw [if_pos ho]
          exact GoError.noConfusion
        · rw [if_neg ho]
          exact he
      · cases C.decrypt sessionKey enc with
        | none => exact GoError.noConfusion
        | some plain => exact ih _ _
    · exact ih _ s₁

/-- Reading is what the session's function does, and no use of the block cache is a crash. -/
theorem run_readFileContent (link : Link) (parentKR : KR) (offset length : ℤ) (s : Session KR) :
    (readFileContent C link parentKR offset length).run (exec C w) s =
      (FileReads.readFileContent C w link parentKR offset length s).mapError .ofContent := by
  rw [readFileContent, FileReads.readFileContent]
  cases link.fileProperties with
  | none => rfl
  | some props =>
    dsimp only
    cases C.getKeyRing link parentKR with
    | none => rfl
    | some nodeKR =>
      dsimp only
      cases C.getSessionKey link nodeKR with
      | none => rfl
      | some sessionKey =>
        dsimp only
        rw [run_ask, exec]
        have hcall := callAPI_sound (w := w) s fun srv => srv.revision link.linkID
          props.activeRevision.id (offset.tdiv protonBlockSize + 1) revisionPageSize
        rcases hc : s.callAPI w fun srv => srv.revision link.linkID props.activeRevision.id
          (offset.tdiv protonBlockSize + 1) revisionPageSize with ⟨e | rev, s₁⟩
        · dsimp only
          split_ifs
          · exact (run_readFromCache ..).trans (mapError_ofContent (readFromCache_sound ..))
          · rw [hc] at hcall
            exact mapError_ofContent (o := (⟨.error e, s₁⟩ : DriveSession.Step KR Bytes)) hcall
        · dsimp only
          rw [run_bind, run_readBlocks, mapError_ofContent (readBlocks_sound ..)]
          generalize FileReads.readBlocks C w sessionKey _ _ rev.blocks [] s₁ = o
          rcases o with ⟨e | buf, s₂⟩ <;> rfl

theorem run_readFile (path : Path) (offset length : ℤ) (s : Session KR) :
    (readFile C path offset length).run (exec C w) s =
      (FileReads.readFile C w path offset length s).mapError .ofHandler := by
  rw [readFile, run_ask, exec, FileReads.readFile]
  rcases s.stat C w path with ⟨e | ⟨link, parentKR⟩, s₁⟩
  · rfl
  · dsimp only
    split_ifs with hfile
    · rfl
    · rw [run_bind, run_mapError, run_readFileContent]
      rcases FileReads.readFileContent C w link parentKR offset length s₁ with ⟨e | data, s₂⟩
      · cases e <;> rfl
      · rfl

end Agreement

end ProtonDrive.ReadPrograms
