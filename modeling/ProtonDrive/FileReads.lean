import ProtonDrive.DriveSession
import ProtonDrive.BlockedFiles

/-!
# Range reads

`ReadFileContent` of `session.go` and the `ReadFile` handler of `main.go`: a byte range is
read from the revision's blocks, each from the block cache or else from the server, and
offline from the block cache alone. Sizes and offsets are 64-bit integers.
-/

namespace ProtonDrive.FileReads
open SlashPaths KeyedMaps FallibleSteps DriveApi DriveSession DriveSession.Session BlockedFiles

variable {KR : Type}

def protonBlockSize : ℕ := 4 * 1024 * 1024

/-- The page size `ReadFileContent` asks for. -/
def revisionPageSize : ℕ := 500

/-- Arithmetic on `int64` wraps around. -/
def wrap64 (x : ℤ) : ℤ := x.bmod (2 ^ 64)

/-- One less, as `int64`: only the least value wraps around. -/
def dec64 (x : ℤ) : ℤ := if x = -(2 ^ 63) then 2 ^ 63 - 1 else x - 1

/-- Trim `buf`, which starts with block `startBlock0`, to the range; length zero keeps all. -/
def sliceRange (buf : Bytes) (startBlock0 offset length : ℤ) : Bytes :=
  let blockStartByte := startBlock0 * protonBlockSize
  let trimStart := if offset - blockStartByte < 0 then 0 else offset - blockStartByte
  if (buf.length : ℤ) ≤ trimStart then []
  else
    let buf := buf.drop trimStart.toNat
    if 0 < length ∧ length < buf.length then buf.take length.toNat else buf

def cachedBlock (w : World) (linkID : LinkID) (revID : RevisionID) (idx : ℤ) (s : Session KR) :
    Option Bytes × Session KR :=
  match s.blocks with
  | none => (none, s)
  | some bc =>
    let r := bc.getBlock (w.now s.ticks) (w.disk s.ticks) linkID revID idx
    (r.1, { s with blocks := some r.2, ticks := s.ticks + 1 })

/-- A block that cannot be stored is only logged. -/
def storeBlock (w : World) (linkID : LinkID) (revID : RevisionID) (idx : ℤ) (data : Bytes)
    (s : Session KR) : Session KR :=
  match s.blocks with
  | none => s
  | some bc =>
    let r := bc.putBlock (w.now s.ticks) (w.disk s.ticks) (w.walkOrder s.ticks) (w.stuck s.ticks)
      linkID revID idx data
    { s with blocks := some r.2, ticks := s.ticks + 1 }

/-- The loop of `readFromCache` over `n` blocks from `idx` on. -/
def readCached (w : World) (linkID : LinkID) (revID : RevisionID) :
    ℕ → ℤ → Bytes → Session KR → Step KR Bytes
  | 0, _, buf, s => ⟨.ok buf, s⟩
  | n + 1, idx, buf, s => match cachedBlock w linkID revID idx s with
    | (none, s) => ⟨.error .offline, s⟩
    | (some data, s) => readCached w linkID revID n (idx + 1) (buf ++ data) s

def readFromCache (w : World) (linkID : LinkID) (revID : RevisionID)
    (fileSize offset length : ℤ) (s : Session KR) : Step KR Bytes :=
  match s.blocks with
  | none => ⟨.error .offline, s⟩
  | some _ =>
    let startBlock0 := offset.tdiv protonBlockSize
    let endByte := if 0 < length ∧ wrap64 (offset + length) < fileSize
      then wrap64 (offset + length) else fileSize
    let endBlock0 := (dec64 endByte).tdiv protonBlockSize
    (readCached w linkID revID (endBlock0 - startBlock0 + 1).toNat startBlock0 [] s).andThen
      fun buf s => ⟨.ok (sliceRange buf startBlock0 offset length), s⟩

variable (C : Crypto KR) (w : World)

/-- The loop of `ReadFileContent` over the blocks of the revision page. -/
def readBlocks (sessionKey : SessionKey) (linkID : LinkID) (revID : RevisionID) :
    List Block → Bytes → Session KR → Step KR Bytes
  | [], buf, s => ⟨.ok buf, s⟩
  | block :: blocks, buf, s =>
    let idx := block.index - 1
    match cachedBlock w linkID revID idx s with
    | (some cached, s) => readBlocks sessionKey linkID revID blocks (buf ++ cached) s
    | (none, s) =>
      ((s.callAPI w (fun srv => srv.block block.bareURL block.token)).recover fun e s =>
        ⟨.error (if isOfflineError e then .offline else e), s⟩).andThen fun enc s =>
          match C.decrypt sessionKey enc with
          | none => ⟨.error .crypto, s⟩
          | some plain => readBlocks sessionKey linkID revID blocks (buf ++ plain)
              (storeBlock w linkID revID idx plain s)

def readFileContent (link : Link) (parentKR : KR) (offset length : ℤ) (s : Session KR) :
    Step KR Bytes :=
  match link.fileProperties with
  | none => ⟨.error .nilDereference, s⟩
  | some props =>
    let revID := props.activeRevision.id
    match C.getKeyRing link parentKR with
    | none => ⟨.error .crypto, s⟩
    | some nodeKR => match C.getSessionKey link nodeKR with
      | none => ⟨.error .crypto, s⟩
      | some sessionKey =>
        let startBlock0 := offset.tdiv protonBlockSize
        match s.callAPI w (fun srv =>
          srv.revision link.linkID revID (startBlock0 + 1) revisionPageSize) with
        | ⟨.error e, s⟩ =>
          if isOfflineError e then readFromCache w link.linkID revID link.size offset length s
          else ⟨.error e, s⟩
        | ⟨.ok rev, s⟩ => (readBlocks C w sessionKey link.linkID revID rev.blocks [] s).andThen
            fun buf s => ⟨.ok (sliceRange buf startBlock0 offset length), s⟩

/-- How a handler fails: with a coded error of the protocol, or with a plain one. -/
inductive HandlerError
  | notFound (e : GoError)
  | invalidArg (message : String)
  | offline (message : String)
  | internal (e : GoError)
  deriving DecidableEq, Repr

structure ReadResult where
  data : Bytes
  eof : Bool
  deriving DecidableEq, Repr

/-- What the handler returns for the bytes it has read. -/
def readResult (length : ℤ) (data : Bytes) : ReadResult :=
  ⟨data, length = 0 ∨ (data.length : ℤ) < length⟩

/-- The `ReadFile` handler, for a session that is logged in. -/
def readFile (path : Path) (offset length : ℤ) (s : Session KR) :
    Outcome HandlerError (Session KR) ReadResult :=
  match s.stat C w path with
  | ⟨.error e, s⟩ => ⟨.error (.notFound e), s⟩
  | ⟨.ok (link, parentKR), s⟩ =>
    if link.type ≠ .file then ⟨.error (.invalidArg "not a file"), s⟩
    else match readFileContent C w link parentKR offset length s with
      | ⟨.error .offline, s⟩ =>
        ⟨.error (.offline "network unreachable and file not in cache"), s⟩
      | ⟨.error e, s⟩ => ⟨.error (.internal e), s⟩
      | ⟨.ok data, s⟩ => ⟨.ok (readResult length data), s⟩

/-- How a read of content goes: it has no key, it reads the blocks of its page, it reads from the
block cache, or its page is refused. -/
theorem readFileContent_cases (link : Link) (parentKR : KR) (offset length : ℤ) (s : Session KR) :
    (∃ e, (e = .nilDereference ∨ e = .crypto) ∧
      readFileContent C w link parentKR offset length s = ⟨.error e, s⟩) ∨
    ∃ props nodeKR sessionKey, link.fileProperties = some props ∧
      C.getKeyRing link parentKR = some nodeKR ∧ C.getSessionKey link nodeKR = some sessionKey ∧
      ((∃ rev, w.fails s.ticks = none ∧ (w.server s.ticks).revision link.linkID
            props.activeRevision.id (offset.tdiv protonBlockSize + 1) revisionPageSize = some rev ∧
          readFileContent C w link parentKR offset length s =
            (readBlocks C w sessionKey link.linkID props.activeRevision.id rev.blocks []
              s.tick).andThen fun buf s =>
                ⟨.ok (sliceRange buf (offset.tdiv protonBlockSize) offset length), s⟩) ∨
        (w.fails s.ticks = some .net ∧ readFileContent C w link parentKR offset length s =
          readFromCache w link.linkID props.activeRevision.id link.size offset length s.tick) ∨
        ∃ a, a ≠ .net ∧
          readFileContent C w link parentKR offset length s = ⟨.error (.api a), s.tick⟩) := by
  simp only [readFileContent]
  cases hprops : link.fileProperties with
  | none => exact .inl ⟨.nilDereference, .inl rfl, rfl⟩
  | some props =>
    dsimp only
    cases hk : C.getKeyRing link parentKR with
    | none => exact .inl ⟨.crypto, .inr rfl, rfl⟩
    | some nodeKR =>
      dsimp only
      cases hsk : C.getSessionKey link nodeKR with
      | none => exact .inl ⟨.crypto, .inr rfl, rfl⟩
      | some sessionKey =>
        refine .inr ⟨props, nodeKR, sessionKey, rfl, rfl, hsk, ?_⟩
        rcases Session.callAPI_cases w s fun srv => srv.revision link.linkID
          props.activeRevision.id (offset.tdiv protonBlockSize + 1) revisionPageSize with
          ⟨rev, hf, hr, hc⟩ | ⟨a, -, hc⟩
        · exact .inl ⟨rev, hf, hr, by rw [hc]⟩
        · cases a with
          | net =>
            have hnet := Session.callAPI_net (congrArg Outcome.result hc)
            exact .inr (.inl ⟨hnet, by rw [hc]; rfl⟩)
          | rejected code => exact .inr (.inr ⟨.rejected code, by simp, by rw [hc]; rfl⟩)
          | notExist => exact .inr (.inr ⟨.notExist, by simp, by rw [hc]; rfl⟩)

/-- How a read request goes: there is no such path, it is not a file, or its content is read. -/
theorem readFile_cases (path : Path) (offset length : ℤ) (s : Session KR) :
    (∃ e s₁, s.stat C w path = ⟨.error e, s₁⟩ ∧
      readFile C w path offset length s = ⟨.error (.notFound e), s₁⟩) ∨
    ∃ link parentKR s₁, s.stat C w path = ⟨.ok (link, parentKR), s₁⟩ ∧
      ((link.type ≠ .file ∧
          readFile C w path offset length s = ⟨.error (.invalidArg "not a file"), s₁⟩) ∨
        (link.type = .file ∧
          ((∃ data s₂, readFileContent C w link parentKR offset length s₁ = ⟨.ok data, s₂⟩ ∧
              readFile C w path offset length s = ⟨.ok (readResult length data), s₂⟩) ∨
            ∃ e e' s₂, readFileContent C w link parentKR offset length s₁ = ⟨.error e, s₂⟩ ∧
              readFile C w path offset length s = ⟨.error e', s₂⟩ ∧
                ((e = .offline ∧ e' = .offline "network unreachable and file not in cache") ∨
                  (e ≠ .offline ∧ e' = .internal e))))) := by
  rw [readFile]
  rcases s.stat C w path with ⟨e | ⟨link, parentKR⟩, s₁⟩
  · exact .inl ⟨e, s₁, rfl, rfl⟩
  · refine .inr ⟨link, parentKR, s₁, rfl, ?_⟩
    dsimp only
    split_ifs with htype
    · exact .inl ⟨htype, rfl⟩
    · refine .inr ⟨not_not.mp htype, ?_⟩
      rcases readFileContent C w link parentKR offset length s₁ with ⟨e | data, s₂⟩
      · right
        cases e with
        | offline => exact ⟨.offline, _, s₂, rfl, rfl, .inl ⟨rfl, rfl⟩⟩
        | api a => exact ⟨.api a, _, s₂, rfl, rfl, .inr ⟨by simp, rfl⟩⟩
        | crypto => exact ⟨.crypto, _, s₂, rfl, rfl, .inr ⟨by simp, rfl⟩⟩
        | notFound q => exact ⟨.notFound q, _, s₂, rfl, rfl, .inr ⟨by simp, rfl⟩⟩
        | nilDereference => exact ⟨.nilDereference, _, s₂, rfl, rfl, .inr ⟨by simp, rfl⟩⟩
      · exact .inl ⟨data, s₂, rfl, rfl⟩

/-- The block that holds an offset. -/
theorem natCast_tdiv_blockSize (o : ℕ) :
    (o : ℤ).tdiv protonBlockSize = (o / protonBlockSize : ℕ) := by
  rw [Int.tdiv_eq_ediv_of_nonneg (by omega), Int.natCast_ediv]

section Blocks

variable {C w} {F : Bytes} {linkID : LinkID} {revID : RevisionID} {s s' : Session KR}

/-- Block `i` of a file. -/
abbrev fileBlock (F : Bytes) (i : ℕ) : Bytes := chunk protonBlockSize F i

/-- From block `k` on, the block cache holds nothing but blocks of the file. -/
def CacheAgrees (F : Bytes) (linkID : LinkID) (revID : RevisionID) (k : ℕ) (s : Session KR) :
    Prop :=
  ∀ bc, s.blocks = some bc → ∀ (i : ℕ) d, k ≤ i →
    bc.dataAt (BlockCache.blockPath linkID revID i) = some d → d = fileBlock F i

theorem CacheAgrees.of_blocks {k : ℕ} (h : CacheAgrees F linkID revID k s)
    (hb : s'.blocks = s.blocks) : CacheAgrees F linkID revID k s' :=
  fun bc hbc => h bc (hb ▸ hbc)

theorem CacheAgrees.mono {k k' : ℕ} (h : CacheAgrees F linkID revID k s) (hk : k ≤ k') :
    CacheAgrees F linkID revID k' s :=
  fun bc hbc i d hi => h bc hbc i d (hk.trans hi)

/-- A cache hit is the block, and looking it up keeps the cache truthful. -/
theorem cachedBlock_agrees {k : ℕ} (h : CacheAgrees F linkID revID k s) (idx : ℤ) :
    CacheAgrees F linkID revID k (cachedBlock w linkID revID idx s).2 ∧
      ∀ (i : ℕ) d, idx = i → k ≤ i → (cachedBlock w linkID revID idx s).1 = some d →
        d = fileBlock F i := by
  simp only [cachedBlock]
  cases hb : s.blocks with
  | none => exact ⟨h.of_blocks rfl, nofun⟩
  | some bc =>
    constructor
    · intro bc' hbc' i d hi hd
      cases hbc'
      rw [BlockCache.Cache.dataAt_getBlock] at hd
      exact h bc hb i d hi hd
    · rintro i d rfl hi hd
      exact h bc hb i d hi (BlockCache.Cache.getBlock_some (Prod.ext hd rfl))

/-- What is stored under a block after block `k` was put: what was there before, or, for block
`k` itself, the new data unless the write is torn. -/
theorem storeBlock_data {data d : Bytes} {k i : ℕ} {bc' : BlockCache.Cache}
    (hbc : (storeBlock w linkID revID k data s).blocks = some bc')
    (hd : bc'.dataAt (BlockCache.blockPath linkID revID i) = some d) :
    ∃ bc, s.blocks = some bc ∧ (bc.dataAt (BlockCache.blockPath linkID revID i) = some d ∨
      (i = k ∧ ((∃ n, w.disk s.ticks = .torn n) ∨ d = data))) := by
  simp only [storeBlock] at hbc
  cases hb : s.blocks with
  | none =>
    rw [hb] at hbc
    cases hb.symm.trans hbc
  | some bc =>
    rw [hb] at hbc
    cases hbc
    refine ⟨bc, rfl, ?_⟩
    by_cases hik : i = k
    · subst hik
      by_cases htorn : ∃ n, w.disk s.ticks = .torn n
      · exact .inr ⟨rfl, .inl htorn⟩
      · rcases BlockCache.Cache.dataAt_putBlock_self (fun n hn => htorn ⟨n, hn⟩) hd with hd | hd
        · exact .inr ⟨rfl, .inr hd⟩
        · exact .inl hd
    · refine .inl (BlockCache.Cache.dataAt_putBlock_ne (fun he => hik ?_) hd)
      simpa [BlockCache.blockPath] using he

/-- Storing block `k`, even torn, leaves the blocks after it alone. -/
theorem storeBlock_agrees {k : ℕ} (h : CacheAgrees F linkID revID k s) (data : Bytes) :
    CacheAgrees F linkID revID (k + 1) (storeBlock w linkID revID k data s) := by
  intro bc' hbc' i d hi hd
  obtain ⟨bc, hb, hold | ⟨rfl, -⟩⟩ := storeBlock_data hbc' hd
  · exact h bc hb i d (by omega) hold
  · omega

/-- Storing a block of the file keeps the cache truthful, unless the write is torn. -/
theorem storeBlock_keeps {m : ℕ} (hdisk : ∀ n k, w.disk n ≠ .torn k)
    (h : CacheAgrees F linkID revID m s) (k : ℕ) :
    CacheAgrees F linkID revID m (storeBlock w linkID revID k (fileBlock F k) s) := by
  intro bc' hbc' i d hi hd
  obtain ⟨bc, hb, hold | ⟨rfl, ⟨n, hn⟩ | rfl⟩⟩ := storeBlock_data hbc' hd
  · exact h bc hb i d hi hold
  · exact absurd hn (hdisk _ n)
  · rfl

theorem readCached_spec {k : ℕ} (h : CacheAgrees F linkID revID k s) (n : ℕ) (buf : Bytes) :
    (readCached w linkID revID n k buf s).Sat
      (fun d _ => d = buf ++ (List.range' k n).flatMap (fileBlock F)) (fun _ _ => True) := by
  induction n generalizing k buf s with
  | zero => exact (List.append_nil buf).symm
  | succ n ih =>
    simp only [readCached]
    obtain ⟨hs, hd⟩ := cachedBlock_agrees (w := w) h k
    rcases hrun : cachedBlock w linkID revID k s with ⟨_ | data, s₁⟩
    · exact trivial
    · rw [hrun] at hs hd
      have hdata : data = fileBlock F k := hd k data rfl le_rfl rfl
      have hnext := ih (k := k + 1) (hs.mono (Nat.le_succ k)) (buf ++ data)
      rw [Nat.cast_succ, hdata, List.append_assoc] at hnext
      rw [hdata]
      exact hnext

/-- What is decrypted from an answer is what the server's blocks decrypt to. -/
theorem plain_of_answer {sessionKey : SessionKey} {b : Block} {n : ℕ} {enc plain data : Bytes}
    (hplain : ∀ n enc plain, (w.server n).block b.bareURL b.token = some enc →
      C.decrypt sessionKey enc = some plain → plain = data)
    (ha : w.answer n (fun srv => srv.block b.bareURL b.token) = some enc)
    (hdec : C.decrypt sessionKey enc = some plain) : plain = data := by
  simp only [World.answer] at ha
  split_ifs at ha
  exact hplain n enc plain ha hdec

/-- The loop over a page of consecutive blocks returns their contents in order. -/
theorem readBlocks_spec {sessionKey : SessionKey} {blocks : List Block}
    (hplain : ∀ b ∈ blocks, ∀ n enc plain, (w.server n).block b.bareURL b.token = some enc →
      C.decrypt sessionKey enc = some plain → plain = fileBlock F (b.index - 1).toNat)
    {k m : ℕ} (hidx : blocks.map Block.index = (List.range' k m).map fun i : ℕ => (i : ℤ) + 1)
    (h : CacheAgrees F linkID revID k s) (buf : Bytes) :
    (readBlocks C w sessionKey linkID revID blocks buf s).Sat
      (fun d _ => d = buf ++ (List.range' k m).flatMap (fileBlock F)) (fun _ _ => True) := by
  induction blocks generalizing k m buf s with
  | nil =>
    cases m with
    | zero => exact (List.append_nil buf).symm
    | succ m => cases hidx
  | cons b blocks ih =>
    cases m with
    | zero => cases hidx
    | succ m =>
      rw [List.range'_succ, List.map_cons, List.map_cons] at hidx
      obtain ⟨hb, hidx⟩ := List.cons.inj hidx
      have hk : b.index - 1 = (k : ℕ) := by omega
      have hrest : ∀ data s₁, data = fileBlock F k → CacheAgrees F linkID revID (k + 1) s₁ →
          (readBlocks C w sessionKey linkID revID blocks (buf ++ data) s₁).Sat
            (fun d _ => d = buf ++ (List.range' k (m + 1)).flatMap (fileBlock F))
            (fun _ _ => True) := by
        rintro data s₁ rfl hs₁
        have hnext := ih (fun b hb => hplain b (List.mem_cons_of_mem _ hb)) hidx hs₁
          (buf ++ fileBlock F k)
        rw [List.append_assoc] at hnext
        exact hnext
      simp only [readBlocks]
      rw [hk]
      obtain ⟨hs, hd⟩ := cachedBlock_agrees (w := w) h k
      rcases hrun : cachedBlock w linkID revID k s with ⟨_ | data, s₁⟩
      · rw [hrun] at hs
        refine Outcome.Sat.andThen (Outcome.Sat.recover
          (callAPI_answer w s₁ fun srv => srv.block b.bareURL b.token) fun _ _ _ => trivial) ?_
        rintro enc s₂ ⟨ha, rfl⟩
        split
        · exact trivial
        · rename_i plain hdec
          have hp := plain_of_answer (hplain b List.mem_cons_self) ha hdec
          rw [hk, Int.toNat_natCast] at hp
          have hs₂ : CacheAgrees F linkID revID k s₁.tick := hs.of_blocks rfl
          exact hrest plain _ hp (storeBlock_agrees hs₂ plain)
      · rw [hrun] at hs hd
        exact hrest data s₁ (hd k data rfl le_rfl rfl) (hs.mono (Nat.le_succ k))

theorem readCached_keeps {m : ℕ} (h : CacheAgrees F linkID revID m s) (n : ℕ) (idx : ℤ)
    (buf : Bytes) : (readCached w linkID revID n idx buf s).Sat
      (fun _ => CacheAgrees F linkID revID m) (fun _ => CacheAgrees F linkID revID m) := by
  induction n generalizing idx buf s with
  | zero => exact h
  | succ n ih =>
    simp only [readCached]
    have hs := (cachedBlock_agrees (w := w) h idx).1
    rcases hrun : cachedBlock w linkID revID idx s with ⟨_ | data, s₁⟩
    · rw [hrun] at hs
      exact hs
    · rw [hrun] at hs
      exact ih hs _ _

/-- Without torn writes, reading a page keeps the cache truthful. -/
theorem readBlocks_keeps {m : ℕ} {sessionKey : SessionKey} {blocks : List Block}
    (hdisk : ∀ n k, w.disk n ≠ .torn k)
    (hplain : ∀ b ∈ blocks, ∀ n enc plain, (w.server n).block b.bareURL b.token = some enc →
      C.decrypt sessionKey enc = some plain → plain = fileBlock F (b.index - 1).toNat)
    (hidx : ∀ b ∈ blocks, 0 < b.index) (h : CacheAgrees F linkID revID m s) (buf : Bytes) :
    (readBlocks C w sessionKey linkID revID blocks buf s).Sat
      (fun _ => CacheAgrees F linkID revID m) (fun _ => CacheAgrees F linkID revID m) := by
  induction blocks generalizing buf s with
  | nil => exact h
  | cons b blocks ih =>
    have hrest : ∀ data s₁, CacheAgrees F linkID revID m s₁ →
        (readBlocks C w sessionKey linkID revID blocks data s₁).Sat
          (fun _ => CacheAgrees F linkID revID m) (fun _ => CacheAgrees F linkID revID m) :=
      fun data s₁ hs₁ => ih (fun b hb => hplain b (List.mem_cons_of_mem _ hb))
        (fun b hb => hidx b (List.mem_cons_of_mem _ hb)) hs₁ data
    simp only [readBlocks]
    have hs := (cachedBlock_agrees (w := w) h (b.index - 1)).1
    rcases hrun : cachedBlock w linkID revID (b.index - 1) s with ⟨_ | data, s₁⟩
    · rw [hrun] at hs
      have hcall := callAPI_answer w s₁ fun srv => srv.block b.bareURL b.token
      refine Outcome.Sat.andThen (Outcome.Sat.recover hcall fun e s₂ he => ?_) ?_
      · rw [he.2]
        exact hs.of_blocks rfl
      rintro enc s₂ ⟨ha, rfl⟩
      split
      · exact hs.of_blocks rfl
      · rename_i plain hdec
        have hp := plain_of_answer (hplain b List.mem_cons_self) ha hdec
        have hk : b.index - 1 = ((b.index - 1).toNat : ℕ) := by
          have hpos := hidx b List.mem_cons_self
          omega
        have hticked : CacheAgrees F linkID revID m s₁.tick := hs.of_blocks rfl
        rw [hp, hk, Int.toNat_natCast]
        exact hrest _ _ (storeBlock_keeps hdisk hticked _)
    · rw [hrun] at hs
      exact hrest _ s₁ hs

end Blocks

section Ranges

variable {C w} {F : Bytes} {link : Link} {parentKR : KR} {revID : RevisionID} {s s' : Session KR}

/-- What the server is relied on for: pages of consecutive blocks in ascending order, at most
as many as asked for, whose decrypted contents are the blocks of the file. -/
structure ServesFile (C : Crypto KR) (w : World) (link : Link) (parentKR : KR)
    (revID : RevisionID) (F : Bytes) : Prop where
  page : ∀ n (k pageSize : ℕ) rev,
    (w.server n).revision link.linkID revID (k + 1) pageSize = some rev →
      rev.blocks.map Block.index =
        (List.range' k (min pageSize (chunkCount protonBlockSize F - k))).map
          fun i : ℕ => (i : ℤ) + 1
  plain : ∀ n from' pageSize rev,
    (w.server n).revision link.linkID revID from' pageSize = some rev →
    ∀ b ∈ rev.blocks, ∀ nodeKR sessionKey, C.getKeyRing link parentKR = some nodeKR →
      C.getSessionKey link nodeKR = some sessionKey →
        ∀ n enc plain, (w.server n).block b.bareURL b.token = some enc →
          C.decrypt sessionKey enc = some plain → plain = fileBlock F (b.index - 1).toNat

/-- The first byte after the page that a read at `o` gets. -/
def pageEnd (o : ℕ) : ℕ := (o / protonBlockSize + revisionPageSize) * protonBlockSize

/-- Trimming a run of blocks from the one that holds the offset. -/
theorem sliceRange_chunks (o l m : ℕ) :
    sliceRange ((F.drop (o / protonBlockSize * protonBlockSize)).take (m * protonBlockSize))
        (o / protonBlockSize : ℕ) o l =
      limit l ((F.drop o).take ((o / protonBlockSize + m) * protonBlockSize - o)) := by
  have hle : o / protonBlockSize * protonBlockSize ≤ o := Nat.div_mul_le_self o _
  rw [← drop_take_chunks hle]
  set buf := (F.drop (o / protonBlockSize * protonBlockSize)).take (m * protonBlockSize)
  set k := o / protonBlockSize * protonBlockSize with hk
  have hstart : ((o / protonBlockSize : ℕ) : ℤ) * protonBlockSize = k := by rw [hk, Nat.cast_mul]
  simp only [sliceRange, limit]
  have htrim : (if (o : ℤ) - k < 0 then 0 else (o : ℤ) - k) = ((o - k : ℕ) : ℤ) := by
    rw [if_neg (by omega)]
    omega
  rw [hstart, htrim, Int.toNat_natCast]
  split_ifs with hshort hl hl hl
  · rw [List.drop_eq_nil_of_le (by omega)]
  · rw [List.drop_eq_nil_of_le (by omega), List.take_nil]
  · omega
  · rw [Int.toNat_natCast]
  · rfl
  · refine (List.take_of_length_le ?_).symm
    omega

/-- A read that gets a page from the server returns the range as far as the page reaches. -/
theorem readFileContent_online (hsrv : ServesFile C w link parentKR revID F)
    (hrev : link.fileProperties.map (·.activeRevision.id) = some revID)
    (hs : CacheAgrees F link.linkID revID 0 s) (hnet : w.fails s.ticks ≠ some .net) (o l : ℕ) :
    (readFileContent C w link parentKR o l s).Sat
      (fun data _ => data = limit l ((F.drop o).take (pageEnd o - o))) (fun _ _ => True) := by
  rcases readFileContent_cases C w link parentKR o l s with ⟨e, -, h⟩ |
    ⟨props, nodeKR, sessionKey, hprops, hk, hsk, ⟨rev, -, hr, h⟩ | ⟨hf, -⟩ | ⟨a, -, h⟩⟩
  · rw [h]
    exact trivial
  · obtain rfl : props.activeRevision.id = revID := by simpa [hprops] using hrev
    rw [natCast_tdiv_blockSize] at hr h
    rw [h]
    have hs₁ : CacheAgrees F link.linkID props.activeRevision.id (o / protonBlockSize) s.tick :=
      (hs.mono (Nat.zero_le _)).of_blocks rfl
    refine Outcome.Sat.andThen (readBlocks_spec
      (fun b hb => hsrv.plain _ _ _ rev hr b hb nodeKR sessionKey hk hsk)
      (hsrv.page _ _ _ rev hr) hs₁ []) ?_
    rintro buf s₁ rfl
    rw [List.nil_append, flatMap_chunk_available (by decide)]
    exact sliceRange_chunks o l revisionPageSize
  · exact absurd hf hnet
  · rw [h]
    exact trivial

/-- Offline, a read that finds all blocks of the range in the cache returns the whole range. -/
theorem readFileContent_offline (hsize : link.size = F.length)
    (hrev : link.fileProperties.map (·.activeRevision.id) = some revID)
    (hs : CacheAgrees F link.linkID revID 0 s) (hnet : w.fails s.ticks = some .net) {o l : ℕ}
    (hmax : o + l < 2 ^ 63) :
    (readFileContent C w link parentKR o l s).Sat
      (fun data _ => data = limit l (F.drop o)) (fun _ _ => True) := by
  rcases readFileContent_cases C w link parentKR o l s with ⟨e, -, h⟩ |
    ⟨props, nodeKR, sessionKey, hprops, -, -, ⟨rev, hf, -⟩ | ⟨-, h⟩ | ⟨a, -, h⟩⟩
  · rw [h]
    exact trivial
  · cases hf.symm.trans hnet
  · obtain rfl : props.activeRevision.id = revID := by simpa [hprops] using hrev
    have hwrap : wrap64 ((o : ℤ) + l) = o + l := by
      simp only [wrap64]
      rw [Int.bmod_eq_of_le] <;> omega
    rw [h]
    simp only [readFromCache]
    cases hb : s.tick.blocks with
    | none => exact trivial
    | some bc =>
      simp only [natCast_tdiv_blockSize, hwrap, hsize]
      set e : ℤ := if 0 < (l : ℤ) ∧ (o : ℤ) + l < F.length then (o : ℤ) + l else F.length with he
      have he1 : dec64 e = e - 1 := by
        rw [dec64, if_neg]
        split_ifs at he <;> omega
      rw [he1]
      set n := ((e - 1).tdiv protonBlockSize - (o / protonBlockSize : ℕ) + 1).toNat with hn
      have hs₁ : CacheAgrees F link.linkID props.activeRevision.id (o / protonBlockSize) s.tick :=
        (hs.mono (Nat.zero_le _)).of_blocks rfl
      apply (readCached_spec hs₁ n []).andThen
      rintro buf s₁ rfl
      rw [List.nil_append, flatMap_chunk]
      refine (sliceRange_chunks o l n).trans (limit_take_eq_iff.mpr ?_)
      -- the blocks read reach at least to the end of the range
      have hreach : e ≤ ((o / protonBlockSize + n) * protonBlockSize : ℕ) := by
        rcases lt_or_ge 0 e with hpos | hneg
        · rw [Int.tdiv_eq_ediv_of_nonneg (by omega)] at hn
          simp only [protonBlockSize] at hn ⊢
          omega
        · exact hneg.trans (Int.natCast_nonneg _)
      split_ifs at he with hend
      · exact .inr (.inl (by omega))
      · exact .inl (by omega)
  · rw [h]
    exact trivial

/-- Without torn writes, a read keeps the cache truthful, whether it succeeds or not. -/
theorem readFileContent_keeps {m : ℕ} (hdisk : ∀ n k, w.disk n ≠ .torn k)
    (hsrv : ServesFile C w link parentKR revID F)
    (hrev : link.fileProperties.map (·.activeRevision.id) = some revID)
    (hs : CacheAgrees F link.linkID revID m s) (o l : ℕ) :
    CacheAgrees F link.linkID revID m (readFileContent C w link parentKR o l s).state := by
  have htick : CacheAgrees F link.linkID revID m s.tick := hs.of_blocks rfl
  rcases readFileContent_cases C w link parentKR o l s with ⟨e, -, h⟩ |
    ⟨props, nodeKR, sessionKey, hprops, hk, hsk, ⟨rev, -, hr, h⟩ | ⟨-, h⟩ | ⟨a, -, h⟩⟩
  · rw [h]
    exact hs
  · obtain rfl : props.activeRevision.id = revID := by simpa [hprops] using hrev
    rw [natCast_tdiv_blockSize] at hr
    have hidx : ∀ b ∈ rev.blocks, 0 < b.index := by
      intro b hb
      have hmem := List.mem_map_of_mem (f := Block.index) hb
      rw [hsrv.page _ _ _ rev hr] at hmem
      obtain ⟨i, -, hi⟩ := List.mem_map.mp hmem
      omega
    rw [h, Outcome.state_andThen_ok]
    exact Outcome.Sat.state (readBlocks_keeps hdisk
      (fun b hb => hsrv.plain _ _ _ rev hr b hb nodeKR sessionKey hk hsk) hidx htick [])
  · obtain rfl : props.activeRevision.id = revID := by simpa [hprops] using hrev
    rw [h]
    simp only [readFromCache]
    split
    · exact htick
    · rw [Outcome.state_andThen_ok]
      exact Outcome.Sat.state (readCached_keeps htick _ _ [])
  · rw [h]
    exact htick

/-- A read that gets a page returns exactly the range, and reports the end of the file only
there, exactly when the file or the range ends on that page. -/
theorem range_read_exact_iff (hsrv : ServesFile C w link parentKR revID F)
    (hrev : link.fileProperties.map (·.activeRevision.id) = some revID)
    (hs : CacheAgrees F link.linkID revID 0 s) (hnet : w.fails s.ticks ≠ some .net) {o l : ℕ}
    (ho : o ≤ F.length) {data : Bytes}
    (h : (readFileContent C w link parentKR o l s).result = .ok data) :
    (data = limit l (F.drop o) ∧
      ((readResult l data).eof = true → o + data.length = F.length)) ↔
    F.length ≤ pageEnd o ∨ (l ≠ 0 ∧ o + l ≤ pageEnd o) := by
  have hdata : data = limit l ((F.drop o).take (pageEnd o - o)) :=
    (readFileContent_online hsrv hrev hs hnet o l).of_ok h
  have hpage : o ≤ pageEnd o := by
    simp only [pageEnd, protonBlockSize, revisionPageSize]
    omega
  have hexact : data = limit l (F.drop o) ↔ F.length ≤ pageEnd o ∨ (l ≠ 0 ∧ o + l ≤ pageEnd o) := by
    rw [hdata, limit_take_eq_iff]
    omega
  rw [← hexact]
  refine ⟨fun h => h.1, fun h => ⟨h, fun heof => ?_⟩⟩
  simp only [readResult, decide_eq_true_eq] at heof
  rw [h] at heof ⊢
  simp only [limit] at *
  split_ifs at heof ⊢ with hl
  · rw [List.length_drop]
    omega
  · rw [List.length_take, List.length_drop] at heof ⊢
    omega

/-- A server with one file, `/f`, whose block `i` has an address of length `i`. -/
def fileServer (F : Bytes) : Server :=
  { serverOf [plainFolder "root" "" "", plainFile "F" "root" "f" F.length "rev1"] with
    revision := fun _ _ fromBlock pageSize =>
      some ⟨(List.range' (fromBlock - 1).toNat (min pageSize.toNat
        (chunkCount protonBlockSize F - (fromBlock - 1).toNat))).map fun i : ℕ =>
          ⟨i + 1, String.ofList (List.replicate i 'b'), ""⟩⟩
    block := fun bareURL _ => some (fileBlock F bareURL.length) }

theorem fileServer_servesFile (link : Link) (revID : RevisionID) (F : Bytes) :
    ServesFile Crypto.plain (World.steady (fileServer F)) link () revID F := by
  constructor
  · intro n k pageSize rev h
    cases h
    simp [List.map_map, Function.comp_def]
  · intro n from' pageSize rev h b hb nodeKR sessionKey hk hsk m enc plain henc hdec
    cases h
    obtain ⟨i, -, rfl⟩ := List.mem_map.mp hb
    cases henc
    cases hdec
    simp

/-- Without failures every block of a page is read. -/
theorem readBlocks_succeeds (F : Bytes) (sessionKey : SessionKey) (linkID : LinkID)
    (revID : RevisionID) (blocks : List Block) (buf : Bytes) {s : Session Unit}
    (hs : s.blocks = none) :
    ∃ data s', readBlocks Crypto.plain (World.steady (fileServer F)) sessionKey linkID revID blocks
      buf s = ⟨.ok data, s'⟩ := by
  induction blocks generalizing buf s with
  | nil => exact ⟨buf, s, rfl⟩
  | cons b blocks ih =>
    have hc : cachedBlock (World.steady (fileServer F)) linkID revID (b.index - 1) s =
        (none, s) := by
      rw [cachedBlock, hs]
    have hst : storeBlock (World.steady (fileServer F)) linkID revID (b.index - 1)
        (fileBlock F b.bareURL.length) s.tick = s.tick := by
      rw [storeBlock, show s.tick.blocks = none from hs]
    have hstep : readBlocks Crypto.plain (World.steady (fileServer F)) sessionKey linkID revID
        (b :: blocks) buf s = readBlocks Crypto.plain (World.steady (fileServer F)) sessionKey
          linkID revID blocks (buf ++ fileBlock F b.bareURL.length) s.tick := by
      rw [readBlocks]
      simp only [hc]
      exact congrArg _ hst
    rw [hstep]
    exact ih _ hs

theorem readFileContent_succeeds (F : Bytes) (o l : ℕ) :
    ∃ data s', readFileContent Crypto.plain (World.steady (fileServer F))
      (plainFile "F" "root" "f" F.length "rev1") () o l (newSession "root" none) =
        ⟨.ok data, s'⟩ := by
  have hcall : ∀ from' pageSize : ℤ, ∃ rev, (newSession "root" none : Session Unit).callAPI
      (World.steady (fileServer F)) (fun srv => srv.revision "F" "rev1" from' pageSize) =
        ⟨.ok rev, (newSession "root" none : Session Unit).tick⟩ := fun _ _ => ⟨_, rfl⟩
  obtain ⟨rev, hr⟩ := hcall ((o : ℤ).tdiv protonBlockSize + 1) revisionPageSize
  obtain ⟨data, s', hb⟩ := readBlocks_succeeds F ⟨""⟩ "F" "rev1" rev.blocks []
    (s := (newSession "root" none : Session Unit).tick) rfl
  refine ⟨sliceRange data ((o : ℤ).tdiv protonBlockSize) o l, s', ?_⟩
  have hread : readFileContent Crypto.plain (World.steady (fileServer F))
      (plainFile "F" "root" "f" F.length "rev1") () o l (newSession "root" none) =
      (readBlocks Crypto.plain (World.steady (fileServer F)) ⟨""⟩ "F" "rev1" rev.blocks []
        (newSession "root" none : Session Unit).tick).andThen fun buf s =>
          ⟨.ok (sliceRange buf ((o : ℤ).tdiv protonBlockSize) o l), s⟩ := by
    have hr' := hr
    simp only [readFileContent]
    simp only [plainFile, Crypto.plain] at *
    rw [hr']
  rw [hread, hb]
  rfl

theorem newSession_agrees (F : Bytes) (linkID : LinkID) (revID : RevisionID) :
    CacheAgrees F linkID revID 0 (newSession "root" none : Session Unit) :=
  fun _ h => nomatch h

/-- A file of 500 blocks and one byte. -/
def longFile : Bytes := List.replicate (revisionPageSize * protonBlockSize + 1) 0

/-- Read as a whole, the file loses its last byte, and its end is reported too early. -/
theorem range_read_exact_fails :
    ∃ data s', readFileContent Crypto.plain (World.steady (fileServer longFile))
        (plainFile "F" "root" "f" longFile.length "rev1") () (0 : ℕ) (0 : ℕ)
        (newSession "root" none) = ⟨.ok data, s'⟩ ∧
      data ≠ limit 0 (longFile.drop 0) ∧
      (readResult (0 : ℕ) data).eof = true ∧ 0 + data.length ≠ longFile.length := by
  obtain ⟨data, s', h⟩ := readFileContent_succeeds longFile 0 0
  have hdata : data = limit 0 ((longFile.drop 0).take (pageEnd 0 - 0)) :=
    (readFileContent_online (fileServer_servesFile _ "rev1" longFile) rfl
      (newSession_agrees longFile _ _) nofun 0 0).of_ok (by rw [h])
  have hlen : data.length ≠ longFile.length := by
    rw [hdata, limit, if_pos rfl, List.length_take, List.length_drop, longFile,
      List.length_replicate, pageEnd]
    simp only [protonBlockSize, revisionPageSize]
    omega
  refine ⟨data, s', h, fun he => hlen ?_, rfl, by omega⟩
  rw [he, limit, if_pos rfl, List.drop_zero]

/-- Three bytes, read from the second on. -/
theorem range_read_exact_short :
    ∃ data s', readFileContent Crypto.plain (World.steady (fileServer [1, 2, 3]))
        (plainFile "F" "root" "f" 3 "rev1") () (1 : ℕ) (0 : ℕ) (newSession "root" none) =
          ⟨.ok data, s'⟩ ∧
      data = [2, 3] ∧ ((readResult (0 : ℕ) data).eof = true → 1 + data.length = 3) := by
  obtain ⟨data, s', h⟩ := readFileContent_succeeds [1, 2, 3] 1 0
  have hexact := (range_read_exact_iff (fileServer_servesFile _ "rev1" [1, 2, 3]) rfl
    (newSession_agrees [1, 2, 3] _ _) nofun (by decide) (congrArg Outcome.result h)).mpr
    (.inl (by decide))
  exact ⟨data, s', h, hexact⟩

end Ranges

end ProtonDrive.FileReads
