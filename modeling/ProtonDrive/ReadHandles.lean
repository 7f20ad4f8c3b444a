import ProtonDrive.FileReads
import ProtonDrive.RpcConnections
import ProtonDrive.Base64Texts

/-!
# Reading through a handle

`do_open_for_read` and `do_read` of the backend, over the RPC client on one side and the
helper's `ReadFile` handler on the other: the handle holds the path and the offset of the next
read, and a read that succeeds moves the offset on by what it got.
-/

namespace ProtonDrive.ReadHandles
open SlashPaths FallibleSteps DriveApi JsonNodes DriveSession DriveSession.Session BlockedFiles
open FileReads RpcClient RpcConnections

variable {KR : Type}

section BlockCacheUntouched

variable {α β : Type} {C : Crypto KR} {w : World} {b : Option BlockCache.Cache} {s : Session KR}

/-- However the step returns, this is the block cache. -/
def HasBlocks (b : Option BlockCache.Cache) (o : Step KR α) : Prop :=
  o.Sat (fun _ s => s.blocks = b) (fun _ s => s.blocks = b)

theorem HasBlocks.andThen {o : Step KR α} {f : α → Session KR → Step KR β} (h : HasBlocks b o)
    (hf : ∀ a s, s.blocks = b → HasBlocks b (f a s)) : HasBlocks b (o.andThen f) :=
  Outcome.Sat.andThen h hf

theorem HasBlocks.recover {o : Step KR α} {g : GoError → Session KR → Step KR α}
    (h : HasBlocks b o) (hg : ∀ e s, s.blocks = b → HasBlocks b (g e s)) :
    HasBlocks b (o.recover g) :=
  Outcome.Sat.recover h hg

theorem callAPI_hasBlocks (hb : s.blocks = b) (answer : Server → Option α) :
    HasBlocks b (s.callAPI w answer) :=
  (callAPI_answer w s answer).mono (fun _ _ h => h.2 ▸ hb) (fun _ _ h => h.2 ▸ hb)

theorem shareKeyRing_hasBlocks (hb : s.blocks = b) : HasBlocks b (s.shareKeyRing C w) := by
  simp only [shareKeyRing]
  split
  · exact hb
  · refine (callAPI_hasBlocks hb _).andThen fun share s₁ h₁ => ?_
    split <;> exact h₁

theorem rootNodeKeyRing_hasBlocks (hb : s.blocks = b) : HasBlocks b (s.rootNodeKeyRing C w) := by
  simp only [rootNodeKeyRing]
  split
  · exact hb
  · refine (shareKeyRing_hasBlocks hb).andThen fun shareKR s₁ h₁ => ?_
    refine (callAPI_hasBlocks h₁ _).andThen fun rootLink s₂ h₂ => ?_
    split <;> exact h₂

theorem walkParts_hasBlocks (p : Path) (parts : List Path) (id : LinkID) (kr : KR) (q : Path)
    (hb : s.blocks = b) : HasBlocks b (walkParts C w p parts id kr q s) := by
  induction parts generalizing id kr q s with
  | nil => exact hb
  | cons part parts ih =>
    unfold walkParts
    refine (callAPI_hasBlocks hb _).andThen fun children s₁ h₁ => ?_
    dsimp only
    split
    · exact h₁
    · split
      · exact h₁
      · exact ih _ _ _ h₁

theorem resolvePath_hasBlocks (p : Path) (hb : s.blocks = b) :
    HasBlocks b (s.resolvePath C w p) := by
  simp only [resolvePath]
  split
  · exact hb
  · exact (rootNodeKeyRing_hasBlocks (s := s.setLinkPath s.rootID ['/']) hb).andThen
      fun kr s₁ h₁ => walkParts_hasBlocks _ _ _ _ _ h₁

theorem listChildren_hasBlocks (p : Path) (hb : s.blocks = b) :
    HasBlocks b (s.listChildren C w p) := by
  simp only [listChildren]
  split
  · exact hb
  · refine HasBlocks.recover ?_ fun e s₁ h₁ => ?_
    · refine (resolvePath_hasBlocks (s := s.tick) p hb).andThen fun node s₁ h₁ => ?_
      exact (callAPI_hasBlocks h₁ _).andThen fun links s₂ h₂ => h₂
    · simp only [staleList]
      split <;> exact h₁

theorem statUncached_hasBlocks (p : Path) (hb : s.blocks = b) :
    HasBlocks b (s.statUncached C w p) := by
  simp only [statUncached]
  split
  · refine (callAPI_hasBlocks hb _).andThen fun link s₁ h₁ => ?_
    exact (rootNodeKeyRing_hasBlocks h₁).andThen fun kr s₂ h₂ => h₂
  · have hparent : HasBlocks b (s.parentKRFor C w p) :=
      (resolvePath_hasBlocks _ hb).andThen fun node s₁ h₁ => h₁
    refine hparent.andThen fun parentKR s₁ h₁ => ?_
    refine (listChildren_hasBlocks _ h₁).andThen fun r s₂ h₂ => ?_
    split <;> exact h₂

/-- A stat leaves the block cache alone. -/
theorem stat_hasBlocks (p : Path) (hb : s.blocks = b) : HasBlocks b (s.stat C w p) := by
  simp only [Session.stat]
  split
  · exact hb
  · refine HasBlocks.recover ?_ fun e s₁ h₁ => ?_
    · exact (statUncached_hasBlocks (s := s.tick) _ hb).andThen fun r s₁ h₁ => h₁
    · simp only [staleStat]
      split <;> exact h₁

end BlockCacheUntouched

section Helper

/-- The parameters of `ReadFile`, unmarshalled from members of the right types. -/
structure ReadParams where
  path : String
  offset : ℤ
  length : ℤ
  deriving DecidableEq, Repr

def unmarshalReadParams (raw : ObjectRef) : ReadParams :=
  ⟨(getStringMember raw "path").getD "", getIntMember raw "offset", getIntMember raw "length"⟩

def notAuth : RPCError := ⟨-32003, "not authenticated"⟩

/-- The coded error a handler returns, or the internal error `dispatch` makes of a plain one.
`errorText` stands for Go's texts of errors. -/
def toRPCError (errorText : GoError → String) : HandlerError → RPCError
  | .notFound e => ⟨-32001, errorText e⟩
  | .invalidArg message => ⟨-32602, message⟩
  | .offline message => ⟨-32005, message⟩
  | .internal e => ⟨-32603, errorText e⟩

/-- A nil slice is written as null. -/
def readResultJson (codec : Codec) (r : ReadResult) : JsonNode :=
  .object [("data", if r.data = [] then .null else .string (codec.encode r.data)),
    ("eof", .boolean r.eof)]

/-- The `ReadFile` handler as it is registered; without a session nobody is logged in. -/
def readFileHandler (codec : Codec) (C : Crypto KR) (w : World) (errorText : GoError → String)
    (session : Option (Session KR)) (params : List (String × JsonNode)) :
    Except RPCError (Option JsonNode) :=
  match session with
  | none => .error notAuth
  | some s =>
    let p := unmarshalReadParams (some params)
    match (FileReads.readFile C w p.path.toList p.offset p.length s).result with
    | .ok r => .ok (some (readResultJson codec r))
    | .error e => .error (toRPCError errorText e)

/-- The session after the handler has run. -/
def readFileSession (C : Crypto KR) (w : World) (session : Option (Session KR))
    (params : List (String × JsonNode)) : Option (Session KR) :=
  session.map fun s =>
    let p := unmarshalReadParams (some params)
    (FileReads.readFile C w p.path.toList p.offset p.length s).state

end Helper

section Backend

structure ProtonHandle where
  path : String
  offset : ℤ
  deriving DecidableEq, Repr

/-- `do_open_for_read`. -/
def doOpenForRead (codec : Codec) (rpc : ProtonRpc) (x : Exchange) (filename : String) :
    ProtonRpc × Returned ProtonHandle :=
  match RpcClient.stat codec rpc x filename with
  | (rpc, ⟨none, e⟩) => (rpc, ⟨none, e⟩)
  | (rpc, ⟨some e, _⟩) =>
    if e.isDir then (rpc, ⟨none, some ⟨.io .isDirectory, "Is a directory"⟩⟩)
    else (rpc, ⟨some ⟨filename, 0⟩, none⟩)

/-- `do_read`: the handle afterwards, and the bytes of the buffer that the job reports. -/
def doRead (codec : Codec) (rpc : ProtonRpc) (x : Exchange) (h : ProtonHandle)
    (bytesRequested : ℕ) : ProtonRpc × ProtonHandle × Returned Bytes :=
  match RpcClient.readFile codec rpc x h.path h.offset (wrap64 bytesRequested) with
  | (rpc, ⟨none, e⟩) => (rpc, h, ⟨none, e⟩)
  | (rpc, ⟨some (data, _), _⟩) =>
    (rpc, { h with offset := h.offset + data.length }, ⟨some data, none⟩)

end Backend

section OneRead

variable {codec : Codec} {C : Crypto KR} {errorText : GoError → String} {F : Bytes}
  {linkID : LinkID} {revID : RevisionID}

/-- What a read of at most `l` bytes from `o` on may return: a part of the file from there on,
nothing only at the end. -/
structure IsChunk (F : Bytes) (o l : ℕ) (data : Bytes) : Prop where
  isPrefix : data <+: F.drop o
  length_le : data.length ≤ l
  eq_nil_iff : data = [] ↔ F.length ≤ o

theorem isChunk_take (o : ℕ) {l n : ℕ} (hn : n ≠ 0) (hl : n ≤ l) :
    IsChunk F o l ((F.drop o).take n) where
  isPrefix := List.take_prefix n _
  length_le := (List.length_take_le n _).trans hl
  eq_nil_iff := by
    rw [List.take_eq_nil_iff, List.drop_eq_nil_iff]
    simp [hn]

/-- Stats of the path name the file, with its size, its revision and its blocks. -/
def StatsFile (C : Crypto KR) (w : World) (s : Session KR) (path : Path) (linkID : LinkID)
    (revID : RevisionID) (F : Bytes) : Prop :=
  ∀ link parentKR s', s.stat C w path = ⟨.ok (link, parentKR), s'⟩ → link.type = .file →
    link.linkID = linkID ∧ link.size = F.length ∧
      link.fileProperties.map (·.activeRevision.id) = some revID ∧
        ServesFile C w link parentKR revID F

/-- The handler's answer is a chunk of the file, online and offline. -/
theorem readFile_isChunk {w : World} {s : Session KR} {path : Path}
    (hcache : CacheAgrees F linkID revID 0 s) (hstat : StatsFile C w s path linkID revID F)
    {o l : ℕ} (hl : l ≠ 0) (hmax : o + l < 2 ^ 63) {r : ReadResult}
    (h : (FileReads.readFile C w path o l s).result = .ok r) : IsChunk F o l r.data := by
  have hblocks := stat_hasBlocks (C := C) (w := w) path (rfl : s.blocks = s.blocks)
  rcases readFile_cases C w path o l s with ⟨e, s₁, -, hread⟩ |
    ⟨link, parentKR, s₁, hrun, ⟨-, hread⟩ |
      ⟨htype, ⟨data, s₂, hc, hread⟩ | ⟨e, e', s₂, -, hread, -⟩⟩⟩
  · rw [hread] at h
    cases h
  · rw [hread] at h
    cases h
  · rw [hrun] at hblocks
    obtain ⟨rfl, hsize, hrev, hserves⟩ := hstat link parentKR s₁ hrun htype
    have hcache₁ : CacheAgrees F link.linkID revID 0 s₁ := hcache.of_blocks hblocks
    have hchunk : (readFileContent C w link parentKR o l s₁).Sat
        (fun data _ => IsChunk F o l data) (fun _ _ => True) := by
      by_cases hnet : w.fails s₁.ticks = some .net
      · refine (readFileContent_offline hsize hrev hcache₁ hnet hmax).mono ?_ fun _ _ _ => trivial
        rintro data - rfl
        rw [limit, if_neg hl]
        exact isChunk_take o hl le_rfl
      · refine (readFileContent_online hserves hrev hcache₁ hnet o l).mono ?_ fun _ _ _ => trivial
        rintro data - rfl
        rw [limit, if_neg hl, List.take_take]
        refine isChunk_take o ?_ (Nat.min_le_left l _)
        have hpage : o < pageEnd o := by
          simp only [pageEnd, protonBlockSize, revisionPageSize]
          omega
        omega
    rw [hc] at hchunk
    rw [hread] at h
    cases h
    exact hchunk
  · rw [hread] at h
    cases h

/-- No write to the block cache is cut short. -/
def WritesWhole (w : World) : Prop := ∀ n k, w.disk n ≠ .torn k

/-- Unless a write is torn, the handler leaves the block cache agreeing with the file. -/
theorem readFile_keeps {w : World} {s : Session KR} {path : Path}
    (hdisk : WritesWhole w) (hcache : CacheAgrees F linkID revID 0 s)
    (hstat : StatsFile C w s path linkID revID F) (o l : ℕ) :
    CacheAgrees F linkID revID 0 (FileReads.readFile C w path o l s).state := by
  have hblocks := stat_hasBlocks (C := C) (w := w) path (rfl : s.blocks = s.blocks)
  have hcontent : ∀ link parentKR s₁, s.stat C w path = ⟨.ok (link, parentKR), s₁⟩ →
      link.type = .file → CacheAgrees F linkID revID 0 s₁ →
        CacheAgrees F linkID revID 0 (readFileContent C w link parentKR o l s₁).state := by
    intro link parentKR s₁ hst htype hs₁
    obtain ⟨rfl, -, hrev, hserves⟩ := hstat link parentKR s₁ hst htype
    exact readFileContent_keeps hdisk hserves hrev hs₁ o l
  rcases readFile_cases C w path o l s with ⟨e, s₁, hst, hread⟩ |
    ⟨link, parentKR, s₁, hst, ⟨-, hread⟩ |
      ⟨htype, ⟨data, s₂, hc, hread⟩ | ⟨e, e', s₂, hc, hread, -⟩⟩⟩
  · rw [hst] at hblocks
    rw [hread]
    exact hcache.of_blocks hblocks
  · rw [hst] at hblocks
    rw [hread]
    exact hcache.of_blocks hblocks
  · rw [hst] at hblocks
    have hkeeps := hcontent link parentKR s₁ hst htype (hcache.of_blocks hblocks)
    rw [hc] at hkeeps
    exact hread ▸ hkeeps
  · rw [hst] at hblocks
    have hkeeps := hcontent link parentKR s₁ hst htype (hcache.of_blocks hblocks)
    rw [hc] at hkeeps
    exact hread ▸ hkeeps

theorem readFileHandler_eq_ok {w : World} {session : Option (Session KR)}
    {params : List (String × JsonNode)} {answer : Option JsonNode}
    (h : readFileHandler codec C w errorText session params = .ok answer) :
    ∃ s r, session = some s ∧
      (FileReads.readFile C w (unmarshalReadParams (some params)).path.toList
        (unmarshalReadParams (some params)).offset (unmarshalReadParams (some params)).length
          s).result = .ok r ∧ answer = some (readResultJson codec r) := by
  simp only [readFileHandler] at h
  cases session with
  | none => cases h
  | some s =>
    dsimp only at h
    cases hr : (FileReads.readFile C w (unmarshalReadParams (some params)).path.toList
      (unmarshalReadParams (some params)).offset (unmarshalReadParams (some params)).length
        s).result with
    | error e =>
      rw [hr] at h
      cases h
    | ok r =>
      rw [hr] at h
      exact ⟨s, r, rfl, hr, (Except.ok.inj h).symm⟩

/-- The response to a read is the one of the handler, whatever data it carries. -/
theorem readFile_value (hcodec : ∀ data, codec.decode (codec.encode data) = data)
    {rpc : ProtonRpc} {x : Exchange} {path : String} {o l : ℕ} (id : ℤ) {r : ReadResult}
    {data : Bytes} {eof : Bool} (hl : r.data.length ≤ l) (hmax : l < 2 ^ 63)
    (hresp : ∀ obj, (call codec rpc "ReadFile" [("path", .string path), ("offset", .int o),
      ("length", .int l)] x).2.value = some obj →
        obj = response id (.ok (some (readResultJson codec r))))
    (h : (RpcClient.readFile codec rpc x path o l).2.value = some (data, eof)) :
    data = r.data := by
  obtain ⟨obj, hobj, hread⟩ := Option.map_eq_some_iff.mp h
  obtain rfl := hresp obj hobj
  have hdata : ((getStringMember (getObjectMember (some (response id
      (.ok (some (readResultJson codec r))))) "result") "data").map codec.decode).getD [] =
        r.data := by
    by_cases hnil : r.data = []
    · simp [response, readResultJson, getObjectMember, getStringMember, hnil]
    · simp [response, readResultJson, getObjectMember, getStringMember, hnil, hcodec]
  have hcopied := (Prod.ext_iff.mp hread).1
  simp only [hdata] at hcopied
  rw [← hcopied]
  apply List.take_of_length_le
  omega

end OneRead

section Runs

variable {codec : Codec} {C : Crypto KR} {errorText : GoError → String} {F : Bytes}
  {linkID : LinkID} {revID : RevisionID}

/-- One `do_read`: how many bytes are asked for, the client, the connection, the world that the
helper meets, and whether the request gets to the helper. -/
structure ReadCall where
  bytesRequested : ℕ
  rpc : ProtonRpc
  exchange : Exchange
  world : World
  reached : Bool

/-- The parameters that are sent. -/
def ReadCall.params (r : ReadCall) (h : ProtonHandle) : List (String × JsonNode) :=
  [("path", .string h.path), ("offset", .int h.offset), ("length", .int (wrap64 r.bytesRequested))]

/-- The session that the call leaves behind, answered or not. -/
def ReadCall.leaves (C : Crypto KR) (h : ProtonHandle) (session : Option (Session KR))
    (r : ReadCall) : Option (Session KR) :=
  if r.reached then readFileSession C r.world session (r.params h) else session

/-- A read in the range of the machine integers, whose response, if one arrives, is the
helper's, with the file in place. -/
structure Served (codec : Codec) (C : Crypto KR) (errorText : GoError → String) (F : Bytes)
    (linkID : LinkID) (revID : RevisionID) (h : ProtonHandle) (session : Option (Session KR))
    (r : ReadCall) : Prop where
  positive : 0 < r.bytesRequested
  inRange : h.offset + r.bytesRequested < 2 ^ 63
  stat : ∀ s, session = some s → StatsFile C r.world s h.path.toList linkID revID F
  answered : ∀ text obj, r.exchange.read = .line text → codec.parse text = .ok obj →
    r.reached = true ∧ ∃ handlers : Handlers,
      handlers "ReadFile" = some (readFileHandler codec C r.world errorText session) ∧
        obj = dispatch handlers r.rpc.nextID "ReadFile" (r.params h)

def ReadCall.run (codec : Codec) (h : ProtonHandle) (r : ReadCall) :
    ProtonRpc × ProtonHandle × Returned Bytes :=
  doRead codec r.rpc r.exchange h r.bytesRequested

/-- The block cache of the session, if there is one, agrees with the file. -/
def Agrees (F : Bytes) (linkID : LinkID) (revID : RevisionID) (session : Option (Session KR)) :
    Prop :=
  ∀ s, session = some s → CacheAgrees F linkID revID 0 s

/-- The block cache of the session holds `d` as block `i` of the file. -/
def Stored (linkID : LinkID) (revID : RevisionID) (session : Option (Session KR)) (i : ℕ)
    (d : Bytes) : Prop :=
  ∃ s bc, session = some s ∧ s.blocks = some bc ∧
    bc.dataAt (BlockCache.blockPath linkID revID i) = some d

/-- A handle, the helper's session and the chunks that the successful ones of any number of reads
have returned. The block cache agrees with the file when the handle is opened. Between the reads
the helper does other things, or starts anew: blocks of the file may go, and what is stored of it
is whole. `Cond` is what is asked of the world of each read. -/
inductive Reading (codec : Codec) (C : Crypto KR) (errorText : GoError → String) (F : Bytes)
    (linkID : LinkID) (revID : RevisionID) (Cond : World → Prop) :
    ProtonHandle → Option (Session KR) → List Bytes → Prop
  | opened {rpc : ProtonRpc} {x : Exchange} {filename : String} {h : ProtonHandle}
      {session : Option (Session KR)}
      (hopen : (doOpenForRead codec rpc x filename).2.value = some h)
      (hcache : Agrees F linkID revID session) :
      Reading codec C errorText F linkID revID Cond h session []
  | read {h : ProtonHandle} {session : Option (Session KR)} {chunks : List Bytes} {r : ReadCall}
      (hr : Reading codec C errorText F linkID revID Cond h session chunks)
      (hs : Served codec C errorText F linkID revID h session r) (hw : Cond r.world) :
      Reading codec C errorText F linkID revID Cond (r.run codec h).2.1 (r.leaves C h session)
        (chunks ++ (r.run codec h).2.2.value.toList)
  | elsewhere {h : ProtonHandle} {session session' : Option (Session KR)} {chunks : List Bytes}
      (hr : Reading codec C errorText F linkID revID Cond h session chunks)
      (hstored : ∀ i d, Stored linkID revID session' i d →
        Stored linkID revID session i d ∨ d = fileBlock F i) :
      Reading codec C errorText F linkID revID Cond h session' chunks

theorem agrees_iff {session : Option (Session KR)} : Agrees F linkID revID session ↔
    ∀ i d, Stored linkID revID session i d → d = fileBlock F i := by
  constructor
  · rintro h i d ⟨s, bc, rfl, hbc, hd⟩
    exact h s rfl bc hbc i d (Nat.zero_le i) hd
  · rintro h s rfl bc hbc i d - hd
    exact h i d ⟨s, bc, rfl, hbc, hd⟩

/-- What the handler unmarshals is what was asked for. -/
theorem ReadCall.unmarshal_params (r : ReadCall) (h : ProtonHandle) :
    unmarshalReadParams (some (r.params h)) = ⟨h.path, h.offset, wrap64 r.bytesRequested⟩ := by
  simp [unmarshalReadParams, ReadCall.params, getStringMember, getIntMember]

theorem wrap64_natCast {n : ℕ} (hn : n < 2 ^ 63) : wrap64 n = n := by
  simp only [wrap64]
  rw [Int.bmod_eq_of_le] <;> omega

/-- A read whose writes are whole leaves the block cache agreeing with the file. -/
theorem leaves_agrees {h : ProtonHandle} {session : Option (Session KR)} {r : ReadCall} {o : ℕ}
    (ho : h.offset = o) (hs : Served codec C errorText F linkID revID h session r)
    (hw : WritesWhole r.world) (hagree : Agrees F linkID revID session) :
    Agrees F linkID revID (r.leaves C h session) := by
  have hmax := hs.inRange
  rw [ReadCall.leaves]
  split_ifs
  · intro s' hs'
    obtain ⟨s, rfl, rfl⟩ := Option.map_eq_some_iff.mp hs'
    dsimp only
    rw [r.unmarshal_params, ho, wrap64_natCast (by omega)]
    exact readFile_keeps hw (hagree s rfl) (hs.stat s rfl) o r.bytesRequested
  · exact hagree

/-- One read: a failure leaves the handle as it was, a success returns a chunk of the file
from the offset on and moves the offset behind it. -/
theorem run_spec (hcodec : ∀ data, codec.decode (codec.encode data) = data) {h : ProtonHandle}
    {session : Option (Session KR)} {o : ℕ} (ho : h.offset = o) {r : ReadCall}
    (hagree : Agrees F linkID revID session)
    (hs : Served codec C errorText F linkID revID h session r) :
    ((r.run codec h).2.2.value = none ∧ (r.run codec h).2.1 = h) ∨
    ∃ data, (r.run codec h).2.2.value = some data ∧
      (r.run codec h).2.1 = { h with offset := (o + data.length : ℕ) } ∧
        IsChunk F o r.bytesRequested data := by
  have hmax : o + r.bytesRequested < 2 ^ 63 := by
    have hr := hs.inRange
    omega
  have hwrap : wrap64 r.bytesRequested = r.bytesRequested := wrap64_natCast (by omega)
  simp only [ReadCall.run, doRead]
  rw [ho, hwrap]
  rcases hrun : RpcClient.readFile codec r.rpc r.exchange h.path o r.bytesRequested with
    ⟨rpc, ⟨_ | ⟨data, eof⟩, e⟩⟩
  · exact .inl ⟨rfl, rfl⟩
  · refine .inr ⟨data, rfl, by rw [Nat.cast_add], ?_⟩
    have hvalue : (RpcClient.readFile codec r.rpc r.exchange h.path o r.bytesRequested).2.value =
        some (data, eof) := by rw [hrun]
    have hanswer : ∀ obj, (call codec r.rpc "ReadFile" [("path", .string h.path),
        ("offset", .int o), ("length", .int r.bytesRequested)] r.exchange).2.value = some obj →
        hasMember (some obj) "error" = false ∧ obj = response r.rpc.nextID
          (readFileHandler codec C r.world errorText session (r.params h)) := by
      intro obj hobj
      obtain ⟨text, hread, hparse, hno⟩ := call_some hobj
      obtain ⟨-, handlers, hhandler, hobj⟩ := hs.answered text obj hread hparse
      refine ⟨hno, ?_⟩
      rw [hobj, dispatch, hhandler]
    obtain ⟨obj, hobj, -⟩ := Option.map_eq_some_iff.mp hvalue
    obtain ⟨hno, hresponse⟩ := hanswer obj hobj
    -- only the handler's success makes a response without an error
    cases hhandler : readFileHandler codec C r.world errorText session (r.params h) with
    | error e =>
      rw [hresponse, hhandler] at hno
      simp [response, hasMember] at hno
    | ok answer =>
      obtain ⟨s, result, hsession, hread, rfl⟩ := readFileHandler_eq_ok hhandler
      rw [r.unmarshal_params, ho, hwrap] at hread
      have hchunk := readFile_isChunk (hagree s hsession) (hs.stat s hsession) hs.positive.ne'
        hmax hread
      have hdata : data = result.data := by
        refine readFile_value hcodec r.rpc.nextID hchunk.length_le (by omega) ?_ hvalue
        intro obj' hobj'
        rw [(hanswer obj' hobj').2, hhandler]
      exact hdata ▸ hchunk

theorem doOpenForRead_offset {rpc : ProtonRpc} {x : Exchange} {filename : String}
    {h : ProtonHandle} (hopen : (doOpenForRead codec rpc x filename).2.value = some h) :
    h.offset = 0 := by
  simp only [doOpenForRead] at hopen
  rcases hrun : RpcClient.stat codec rpc x filename with ⟨rpc, ⟨_ | e, _⟩⟩
  · rw [hrun] at hopen
    cases hopen
  · rw [hrun] at hopen
    dsimp only at hopen
    split_ifs at hopen
    cases hopen
    rfl

/-- What has been read is a prefix of the file that ends at the offset, and the block cache still
agrees with the file. -/
theorem Reading.delivered (hcodec : ∀ data, codec.decode (codec.encode data) = data)
    {h : ProtonHandle} {session : Option (Session KR)} {chunks : List Bytes}
    (hr : Reading codec C errorText F linkID revID WritesWhole h session chunks) :
    Agrees F linkID revID session ∧ chunks.flatten <+: F ∧ h.offset = chunks.flatten.length := by
  induction hr with
  | opened hopen hcache => exact ⟨hcache, List.nil_prefix, doOpenForRead_offset hopen⟩
  | @read h session chunks r _ hs hw ih =>
    obtain ⟨hagree, hdelivered, hoffset⟩ := ih
    refine ⟨leaves_agrees hoffset hs hw hagree, ?_⟩
    rcases run_spec hcodec hoffset hagree hs with ⟨hv, hh⟩ | ⟨data, hv, hh, hchunk⟩
    · rw [hv, hh, Option.toList_none, List.append_nil]
      exact ⟨hdelivered, hoffset⟩
    · rw [hv, hh, Option.toList_some, List.flatten_append, List.flatten_singleton,
        List.length_append]
      refine ⟨?_, rfl⟩
      obtain ⟨rest, rfl⟩ := hdelivered
      have hdata := hchunk.isPrefix
      rw [List.drop_left] at hdata
      exact (List.prefix_append_right_inj _).mpr hdata
  | elsewhere _ hstored ih =>
    obtain ⟨hagree, hdelivered, hoffset⟩ := ih
    refine ⟨agrees_iff.mpr fun i d hd => ?_, hdelivered, hoffset⟩
    rcases hstored i d hd with hd | hd
    · exact agrees_iff.mp hagree i d hd
    · exact hd

/-- If no write to the block cache is cut short, sequential reads reconstruct the file: the chunks
make a prefix of it whose length is the offset, a failed read leaves the offset alone, and nothing
is returned exactly when the whole file has been. -/
theorem reads_reconstruct (hcodec : ∀ data, codec.decode (codec.encode data) = data)
    {h : ProtonHandle} {session : Option (Session KR)} {chunks : List Bytes}
    (hr : Reading codec C errorText F linkID revID WritesWhole h session chunks) :
    chunks.flatten <+: F ∧ h.offset = chunks.flatten.length ∧
    ∀ r : ReadCall, Served codec C errorText F linkID revID h session r →
      ((r.run codec h).2.2.value = none → (r.run codec h).2.1.offset = h.offset) ∧
      ∀ data, (r.run codec h).2.2.value = some data →
        (data.length = 0 ↔ chunks.flatten = F) := by
  obtain ⟨hagree, hdelivered, hoffset⟩ := hr.delivered hcodec
  refine ⟨hdelivered, hoffset, fun r hs => ?_⟩
  rcases run_spec hcodec hoffset hagree hs with ⟨hv, hh⟩ | ⟨data, hv, hh, hchunk⟩
  · refine ⟨fun _ => by rw [hh], fun data hd => ?_⟩
    cases hv.symm.trans hd
  · refine ⟨fun hn => ?_, fun data' hd => ?_⟩
    · cases hv.symm.trans hn
    obtain rfl : data = data' := Option.some.inj (hv.symm.trans hd)
    rw [List.length_eq_zero_iff, hchunk.eq_nil_iff]
    exact ⟨fun hle => hdelivered.eq_of_length (le_antisymm hdelivered.length_le hle),
      fun he => he ▸ le_rfl⟩

end Runs

section TwoBytes

/-- Base64 as both sides have it, over some parser of lines. -/
def base64Codec (parse : String → Except GError JsonObject) : Codec where
  parse
  encode data := String.ofList (Base64Texts.encode data)
  decode text := Base64Texts.decode text.toList

theorem base64Codec_roundtrip (parse : String → Except GError JsonObject) (data : Bytes) :
    (base64Codec parse).decode ((base64Codec parse).encode data) = data := by
  simp only [base64Codec, String.toList_ofList, Base64Texts.decode_encode]

def twoBytes : Bytes := [104, 105]

def readReply (id : ℤ) (r : ReadResult) : JsonObject :=
  response id (.ok (some (readResultJson (base64Codec fun _ => .ok []) r)))

/-- The replies to a stat, to a read of the two bytes or of the first one, and to a read that gets
nothing. -/
def replies : Codec := base64Codec fun text => .ok (
  if text = "stat" then [("id", .int 1), ("result", .object [("name", .string "f"),
    ("is_dir", .boolean false), ("size", .int 2), ("mtime", .int 0), ("link_id", .string "F"),
    ("revision_id", .string "rev1")])]
  else if text = "both" then readReply 2 ⟨twoBytes, true⟩
  else if text = "first" then readReply 2 ⟨[104], false⟩
  else readReply 3 ⟨[], true⟩)

/-- A helper with an empty block cache, and a world in which writes to it end in some way. -/
def cachingSession : Session Unit := newSession "root" (some ⟨1000, 900, ∅⟩)

def diskWorld (disk : DiskOutcome) : World :=
  { World.steady (fileServer twoBytes) with disk := fun _ => disk }

def readOf (n nextID : ℕ) (text : String) (disk : DiskOutcome) : ReadCall :=
  ⟨n, ⟨true, nextID, []⟩, ⟨none, .rejected, .line text, none⟩, diskWorld disk, true⟩

theorem cachingSession_agrees : Agrees twoBytes "F" "rev1" (some cachingSession) := by
  refine agrees_iff.mpr ?_
  rintro i d ⟨s, bc, ⟨⟩, ⟨⟩, hd⟩
  cases hd

theorem statsFile_twoBytes {s : Session Unit} (disk : DiskOutcome)
    (hstat : (s.stat Crypto.plain (diskWorld disk) "/f".toList).result =
      .ok (plainFile "F" "root" "f" 2 "rev1", ())) :
    StatsFile Crypto.plain (diskWorld disk) s "/f".toList "F" "rev1" twoBytes := by
  intro link parentKR s' h _
  rw [h] at hstat
  cases hstat
  have hserves := fileServer_servesFile (plainFile "F" "root" "f" 2 "rev1") "rev1" twoBytes
  exact ⟨rfl, rfl, rfl, hserves.page, hserves.plain⟩

theorem readOf_served {n o : ℕ} (nextID : ℕ) (text : String) (disk : DiskOutcome)
    {s : Session Unit} {r : ReadResult} (hn : 0 < n) (ho : o + n < 2 ^ 63)
    (hstat : (s.stat Crypto.plain (diskWorld disk) "/f".toList).result =
      .ok (plainFile "F" "root" "f" 2 "rev1", ()))
    (hread : (FileReads.readFile Crypto.plain (diskWorld disk) "/f".toList o n s).result = .ok r)
    (hreply : replies.parse text = .ok (readReply nextID r)) :
    Served replies Crypto.plain (fun _ => "") twoBytes "F" "rev1" ⟨"/f", o⟩ (some s)
      (readOf n nextID text disk) where
  positive := hn
  inRange := by
    change (o : ℤ) + n < 2 ^ 63
    omega
  stat := by
    rintro s ⟨⟩
    exact statsFile_twoBytes disk hstat
  answered := by
    rintro text obj ⟨⟩ hparse
    refine ⟨rfl, fun _ => some (readFileHandler replies Crypto.plain (diskWorld disk)
      (fun _ => "") (some s)), rfl, ?_⟩
    have hwrap : wrap64 (readOf n nextID text disk).bytesRequested = n :=
      wrap64_natCast (n := n) (by omega)
    rw [Except.ok.inj (hparse.symm.trans hreply), dispatch]
    simp only [readFileHandler, ReadCall.unmarshal_params, hwrap]
    change _ = response _ (match (FileReads.readFile Crypto.plain (diskWorld disk) "/f".toList o n
      s).result with | .ok r => _ | .error e => _)
    rw [hread]
    rfl

theorem leaves_readOf {n nextID o : ℕ} (text : String) (disk : DiskOutcome) (s : Session Unit)
    (hn : n < 2 ^ 63) : (readOf n nextID text disk).leaves Crypto.plain ⟨"/f", o⟩ (some s) =
      some (FileReads.readFile Crypto.plain (diskWorld disk) "/f".toList o n s).state := by
  have hwrap : wrap64 (readOf n nextID text disk).bytesRequested = n := wrap64_natCast hn
  simp only [ReadCall.leaves, readFileSession, ReadCall.unmarshal_params, hwrap]
  rfl

/-- The handle after its stat, with the block cache still empty. -/
theorem reading_opened (Cond : World → Prop) : Reading replies Crypto.plain (fun _ => "") twoBytes
    "F" "rev1" Cond ⟨"/f", (0 : ℕ)⟩ (some cachingSession) [] := by
  have hopen : (doOpenForRead replies ⟨true, 1, []⟩ ⟨none, .rejected, .line "stat", none⟩
      "/f").2.value = some ⟨"/f", (0 : ℕ)⟩ := rfl
  exact .opened hopen cachingSession_agrees

/-- The session after a first read of so many bytes. -/
def sessionRead (n : ℕ) (disk : DiskOutcome) : Session Unit :=
  (FileReads.readFile Crypto.plain (diskWorld disk) "/f".toList (0 : ℕ) n cachingSession).state

/-- After a first read the handle stands behind what it got. -/
theorem reading_first {Cond : World → Prop} {n : ℕ} (text : String) (disk : DiskOutcome)
    {r : ReadResult} (hw : Cond (diskWorld disk)) (hn : 0 < n) (hmax : n < 2 ^ 63)
    (hread : (FileReads.readFile Crypto.plain (diskWorld disk) "/f".toList (0 : ℕ) n
      cachingSession).result = .ok r)
    (hreply : replies.parse text = .ok (readReply (2 : ℕ) r))
    (hrun : ((readOf n 2 text disk).run replies ⟨"/f", (0 : ℕ)⟩).2 =
      (⟨"/f", (r.data.length : ℕ)⟩, ⟨some r.data, none⟩)) :
    Reading replies Crypto.plain (fun _ => "") twoBytes "F" "rev1" Cond ⟨"/f", (r.data.length : ℕ)⟩
      (some (sessionRead n disk)) [r.data] := by
  have hserved := readOf_served 2 text disk (s := cachingSession) hn (by omega) (by rfl) hread
    hreply
  have h := (reading_opened Cond).read hserved hw
  rw [leaves_readOf text disk cachingSession hmax, hrun] at h
  exact h

/-- Two bytes are read at once, and the next read returns nothing. -/
theorem reads_reconstruct_twoBytes :
    ∃ h session chunks,
      Reading replies Crypto.plain (fun _ => "") twoBytes "F" "rev1" WritesWhole h session chunks ∧
      chunks = [twoBytes] ∧ h.offset = 2 ∧
      ((readOf 4 3 "end" .done).run replies h).2.2.value = some [] ∧
      (([] : Bytes).length = 0 ↔ chunks.flatten = twoBytes) := by
  have hwhole : WritesWhole (diskWorld .done) := by
    rintro n k ⟨⟩
  have hread := reading_first "both" .done (n := 4) (r := ⟨twoBytes, true⟩) hwhole (by decide)
    (by decide) (by decide +kernel) rfl rfl
  have hlast := readOf_served 3 "end" .done (n := 4) (o := 2) (r := ⟨[], true⟩)
    (s := sessionRead 4 .done) (by decide) (by decide) (by rfl) (by decide +kernel) (by rfl)
  have hnothing : ((readOf 4 3 "end" .done).run replies ⟨"/f", (2 : ℕ)⟩).2.2.value = some [] := by
    rfl
  exact ⟨_, _, _, hread, rfl, rfl, hnothing,
    ((reads_reconstruct (base64Codec_roundtrip _) hread).2.2 _ hlast).2 [] hnothing⟩

/-- The first byte is read while the write of its block is cut short to nothing: the next read
succeeds and returns nothing, with the second byte still to come. -/
theorem reads_reconstruct_fails :
    ∃ h session chunks r,
      Reading replies Crypto.plain (fun _ => "") twoBytes "F" "rev1" (fun _ => True) h session
        chunks ∧
      Served replies Crypto.plain (fun _ => "") twoBytes "F" "rev1" h session r ∧
      (r.run replies h).2.2.value = some [] ∧ chunks.flatten ≠ twoBytes := by
  have hread := @reading_first (fun _ => True) 1 "first" (.torn 0) ⟨[104], false⟩ trivial
    (by decide) (by decide) (by decide +kernel) rfl rfl
  have hnext := readOf_served 3 "end" .done (n := 1) (o := 1) (r := ⟨[], true⟩)
    (s := sessionRead 1 (.torn 0)) (by decide) (by decide) (by rfl) (by decide +kernel) (by rfl)
  exact ⟨_, _, _, _, hread, hnext, by rfl, by decide⟩

end TwoBytes

end ProtonDrive.ReadHandles
