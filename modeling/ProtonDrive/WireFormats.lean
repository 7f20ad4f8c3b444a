import ProtonDrive.ChangeMonitors
import ProtonDrive.DirectoryHandlers
import ProtonDrive.JsonStrings

/-!
# What the helper writes and the client reads

The results of six handlers as `encoding/json` writes them, and what the matching functions of
`proton-rpc.c` make of such a response. Go strings are bytes, which are taken for UTF-8 when they
are written and are C strings when they are read. A nil slice becomes null and empty optional
fields are omitted; the client reads a missing string as NULL, and hands the text of the data of a
read to `g_base64_decode` unseen.
-/

namespace ProtonDrive.WireFormats
open SlashPaths DriveApi DriveSession EventPoller JsonNodes RpcClient RpcConnections FileReads
  DirectoryHandlers ReadHandles ChangeMonitors JsonStrings

section Helper

/-- Any bytes, UTF-8 or not. -/
abbrev GoString := Bytes

def goString (s : String) : GoString := utf8 s.toList

/-- A string as it is parsed from what is written for it. -/
def stringNode (s : GoString) : JsonNode := .string (carried s)

/-- The text of some bytes, or null for a nil slice. -/
def bytesNode : Option Bytes → JsonNode
  | none => .null
  | some data => stringNode (utf8 (Base64Texts.encode data))

/-- `rpc.Entry`. -/
structure RpcEntry where
  name : GoString
  isDir : Bool
  size : ℤ
  mtime : ℤ
  linkID : GoString
  revisionID : GoString
  hasThumbnail : Bool
  deriving DecidableEq, Repr

def RpcEntry.json (e : RpcEntry) : JsonNode :=
  .object ([("name", stringNode e.name), ("is_dir", .boolean e.isDir), ("size", .int e.size),
      ("mtime", .int e.mtime), ("link_id", stringNode e.linkID)] ++
    (if e.revisionID = [] then [] else [("revision_id", stringNode e.revisionID)]) ++
    if e.hasThumbnail then [("has_thumbnail", .boolean true)] else [])

/-- `rpc.DriveEvent`, whose type is one of three constants. -/
structure RpcEvent where
  type : EventType
  linkID : GoString
  path : GoString
  deriving DecidableEq, Repr

def typeText : EventType → String
  | .changed => "changed"
  | .deleted => "deleted"
  | .created => "created"

def RpcEvent.json (e : RpcEvent) : JsonNode :=
  .object ([("type", .string (typeText e.type)), ("link_id", stringNode e.linkID)] ++
    if e.path = [] then [] else [("path", stringNode e.path)])

/-- `rpc.AuthResult`, with a nil passphrase told apart from an empty one. -/
structure AuthResult where
  uid : GoString
  refreshToken : GoString
  saltedPassphrase : Option Bytes
  deriving DecidableEq, Repr

def AuthResult.json (r : AuthResult) : JsonNode :=
  .object [("uid", stringNode r.uid), ("refresh_token", stringNode r.refreshToken),
    ("salted_passphrase", bytesNode r.saltedPassphrase)]

/-- `rpc.ReadResult`, whose data is nil when there is none. -/
def readJson (r : ReadResult) : JsonNode :=
  .object [("data", bytesNode (if r.data = [] then none else some r.data)),
    ("eof", .boolean r.eof)]

end Helper

section Calls

inductive Call
  | listDir (path : String)
  | stat (path : String)
  | readFile (path : String) (offset length : ℤ)
  | getEvents
  | fetchThumbnail (linkID revisionID : String)
  | resumeSession (uid refreshToken : String) (saltedPassphrase : Bytes)

namespace Call

/-- What the handler returns. -/
@[reducible] def Result : Call → Type
  | .listDir _ => List RpcEntry
  | .stat _ => RpcEntry
  | .readFile _ _ _ => ReadResult
  | .getEvents => List RpcEvent
  | .fetchThumbnail _ _ => GoString
  | .resumeSession _ _ _ => AuthResult

/-- What the client's function returns. -/
@[reducible] def Reading : Call → Type
  | .listDir _ => List ProtonEntry
  | .stat _ => ProtonEntry
  | .readFile _ _ _ => Bytes × Bool
  | .getEvents => List ProtonEvent
  | .fetchThumbnail _ _ => Option String
  | .resumeSession _ _ _ => Option String × Option String

/-- The result as it is parsed from what the helper writes. -/
def json : (c : Call) → c.Result → JsonNode
  | .listDir _, entries => .object [("entries", .array (entries.map RpcEntry.json))]
  | .stat _, e => e.json
  | .readFile _ _ _, r => readJson r
  | .getEvents, events => .object [("events", .array (events.map RpcEvent.json))]
  | .fetchThumbnail _ _, path => .object [("path", stringNode path)]
  | .resumeSession _ _ _, r => r.json

variable (codec : Codec)

/-- The result as the client reads it from a response. -/
def read : (c : Call) → ObjectRef → c.Reading
  | .listDir _, resp =>
    let entries := getArrayMember (getObjectMember resp "result") "entries"
    (entries.getD []).map fun e => readEntry e.getObject
  | .stat _, resp => readEntry (getObjectMember resp "result")
  | .readFile _ _ length, resp =>
    let result := getObjectMember resp "result"
    let data := ((getStringMember result "data").map codec.decode).getD []
    (data.take (min data.length (length % 2 ^ 64).toNat), getBooleanMember result "eof")
  | .getEvents, resp => (resp.map readEvents).getD []
  | .fetchThumbnail _ _, resp =>
    (getStringMember (getObjectMember resp "result") "path").filter (· ≠ "")
  | .resumeSession _ _ _, resp =>
    let result := getObjectMember resp "result"
    (getStringMember result "uid", getStringMember result "refresh_token")

/-- The texts that the client hands to `g_base64_decode`, which takes no NULL. -/
def decoded : Call → ObjectRef → List (Option String)
  | .readFile _ _ _, resp => [getStringMember (getObjectMember resp "result") "data"]
  | _, _ => []

/-- The client's functions read their responses so. -/
theorem client_reads (rpc : ProtonRpc) (x : Exchange) (path uid refreshToken : String)
    (offset length : ℤ) (saltedPassphrase : Bytes) :
    RpcClient.listDir codec rpc x path = withResult (call codec rpc "ListDir"
      [("path", .string path)] x) ((Call.listDir path).read codec) ∧
    RpcClient.stat codec rpc x path = withResult (call codec rpc "Stat"
      [("path", .string path)] x) ((Call.stat path).read codec) ∧
    RpcClient.readFile codec rpc x path offset length = withResult (call codec rpc "ReadFile"
      [("path", .string path), ("offset", .int offset), ("length", .int length)] x)
        ((Call.readFile path offset length).read codec) ∧
    RpcClient.resumeSession codec rpc x uid refreshToken saltedPassphrase =
      withResult (call codec rpc "ResumeSession" [("uid", .string uid),
        ("refresh_token", .string refreshToken),
        ("salted_passphrase", .string (codec.encode saltedPassphrase))] x)
          ((Call.resumeSession uid refreshToken saltedPassphrase).read codec) :=
  ⟨rfl, rfl, rfl, rfl⟩

end Call

end Calls

section Agreement

/-- The same string on the other side. -/
def SameText (s : GoString) (t : Option String) : Prop := t.map goString = some s

/-- The same string, with NULL for an empty one. -/
def SameOptional (s : GoString) (t : Option String) : Prop :=
  if s = [] then t = none else SameText s t

/-- The same entry on the other side. -/
structure SameEntry (e : RpcEntry) (p : ProtonEntry) : Prop where
  name : SameText e.name p.name
  isDir : p.isDir = e.isDir
  size : p.size = e.size
  mtime : p.mtime = e.mtime
  linkID : SameText e.linkID p.linkID
  revisionID : SameOptional e.revisionID p.revisionID
  hasThumbnail : p.hasThumbnail = e.hasThumbnail

/-- The same notification on the other side. -/
structure SameEvent (e : RpcEvent) (p : ProtonEvent) : Prop where
  type : p.type = some (typeText e.type)
  linkID : SameText e.linkID p.linkID
  path : SameOptional e.path p.path

/-- The same value on the other side: all its fields, with NULL for what is empty in an optional
field, in the same order. -/
def Call.Same : (c : Call) → c.Result → c.Reading → Prop
  | .listDir _, entries, read => List.Forall₂ SameEntry entries read
  | .stat _, e, read => SameEntry e read
  | .readFile _ _ _, r, read => read = (r.data, r.eof)
  | .getEvents, events, read => List.Forall₂ SameEvent events read
  | .fetchThumbnail _ _, path, read => SameOptional path read
  | .resumeSession _ _ _, r, read => SameText r.uid read.1 ∧ SameText r.refreshToken read.2

/-- The client reads the value that the helper has written in its response, and decodes no
NULL text. -/
structure Agrees (codec : Codec) (c : Call) (r : c.Result) (id : ℤ) : Prop where
  value : ∃ read, (readResponse (response id (.ok (some (c.json r))))).value.map
    (fun resp => c.read codec (some resp)) = some read ∧ c.Same r read
  decoded : none ∉ c.decoded (some (response id (.ok (some (c.json r)))))

/-- The results that arrive: those whose strings are all UTF-8 without NUL, and of reads, those with
data, no longer than what was asked for. -/
def Call.Arrives : (c : Call) → c.Result → Prop
  | .listDir _, entries =>
    ∀ e ∈ entries, IsText e.name ∧ IsText e.linkID ∧ IsText e.revisionID
  | .stat _, e => IsText e.name ∧ IsText e.linkID ∧ IsText e.revisionID
  | .readFile _ _ length, r => r.data ≠ [] ∧ (r.data.length : ℤ) ≤ length % 2 ^ 64
  | .getEvents, events => ∀ e ∈ events, IsText e.linkID ∧ IsText e.path
  | .fetchThumbnail _ _, path => IsText path
  | .resumeSession _ _ _, r => IsText r.uid ∧ IsText r.refreshToken

/-- A result is found in its response. -/
theorem readResponse_ok (id : ℤ) (node : JsonNode) :
    (readResponse (response id (.ok (some node)))).value =
      some (response id (.ok (some node))) := by
  simp [readResponse, response, hasMember]

theorem getObjectMember_response (id : ℤ) (members : JsonObject) :
    getObjectMember (some (response id (.ok (some (.object members))))) "result" =
      some members := by
  simp [response, getObjectMember]

theorem isText_nil : IsText [] := ⟨[], rfl, List.not_mem_nil⟩

theorem sameText_carried_iff {s : GoString} : SameText s (some (carried s)) ↔ IsText s := by
  rw [← utf8_carried_iff, SameText, Option.map_some, Option.some_inj]
  rfl

/-- An optional string is omitted when it is empty. -/
theorem sameOptional_iff {s : GoString} {t : Option String}
    (ht : t = if s = [] then none else some (carried s)) : SameOptional s t ↔ IsText s := by
  rw [SameOptional, ht]
  split_ifs with hs
  · rw [hs]
    exact iff_of_true rfl isText_nil
  · exact sameText_carried_iff

/-- A string that is always written counts as NULL when it is empty. -/
theorem sameOptional_filter_iff (s : GoString) :
    SameOptional s ((some (carried s)).filter (· ≠ "")) ↔ IsText s := by
  by_cases hc : carried s = ""
  · rw [hc]
    by_cases hs : s = []
    · rw [hs]
      exact iff_of_true rfl isText_nil
    · rw [SameOptional, if_neg hs]
      refine iff_of_false (fun h => ?_) fun h => hs ?_
      · cases h
      · rw [← (utf8_carried_iff s).mpr h, hc]
        rfl
  · have hs : s ≠ [] := fun hs => hc (by rw [hs]; rfl)
    have hfilter : (some (carried s)).filter (· ≠ "") = some (carried s) := by simp [hc]
    rw [hfilter, SameOptional, if_neg hs]
    exact sameText_carried_iff

theorem sameEntry_iff (e : RpcEntry) : SameEntry e (readEntry e.json.getObject) ↔
    IsText e.name ∧ IsText e.linkID ∧ IsText e.revisionID := by
  have hread : readEntry e.json.getObject = ⟨some (carried e.name), e.isDir, e.size, e.mtime,
      some (carried e.linkID), if e.revisionID = [] then none else some (carried e.revisionID),
        e.hasThumbnail⟩ := by
    by_cases hr : e.revisionID = [] <;> cases ht : e.hasThumbnail <;>
      simp [RpcEntry.json, stringNode, JsonNode.getObject, readEntry, hasMember, getStringMember,
        getBooleanMember, getIntMember, hr, ht]
  rw [hread, ← sameText_carried_iff, ← sameText_carried_iff (s := e.linkID)]
  rw [← sameOptional_iff (s := e.revisionID) rfl]
  exact ⟨fun h => ⟨h.name, h.linkID, h.revisionID⟩,
    fun h => ⟨h.1, rfl, rfl, rfl, h.2.1, h.2.2, rfl⟩⟩

theorem sameEvent_iff (e : RpcEvent) : SameEvent e (readEvent e.json.getObject) ↔
    IsText e.linkID ∧ IsText e.path := by
  have hread : readEvent e.json.getObject = ⟨some (typeText e.type), some (carried e.linkID),
      if e.path = [] then none else some (carried e.path)⟩ := by
    by_cases hp : e.path = [] <;>
      simp [RpcEvent.json, stringNode, JsonNode.getObject, readEvent, hasMember, getStringMember,
        hp]
  rw [hread, ← sameText_carried_iff, ← sameOptional_iff (s := e.path) rfl]
  exact ⟨fun h => ⟨h.linkID, h.path⟩, fun h => ⟨rfl, h.1, h.2⟩⟩

theorem forall₂_map_iff {α β : Type} {R : α → β → Prop} {f : α → β} (as : List α) :
    List.Forall₂ R as (as.map f) ↔ ∀ a ∈ as, R a (f a) := by
  rw [List.forall₂_map_right_iff, List.forall₂_same]

/-- Base64 is carried over. -/
theorem carried_encode (data : Bytes) :
    carried (utf8 (Base64Texts.encode data)) = String.ofList (Base64Texts.encode data) := by
  refine carried_utf8 fun hmem => ?_
  have hplain : '\x00' ∉ '=' :: Base64Texts.alphabet := by decide +kernel
  exact hplain (Base64Texts.mem_encode hmem)

/-- The text of the data is NULL when there is none. -/
theorem getStringMember_data (r : ReadResult) :
    getStringMember (some [("data", bytesNode (if r.data = [] then none else some r.data)),
      ("eof", .boolean r.eof)]) "data" =
        if r.data = [] then none else some (String.ofList (Base64Texts.encode r.data)) := by
  by_cases hnil : r.data = []
  · simp [getStringMember, bytesNode, hnil]
  · simp [getStringMember, bytesNode, stringNode, carried_encode, hnil]

variable {parse : String → Except GError JsonObject}

/-- The client copies what fits its buffer. -/
theorem read_readFile {path : String} {offset length : ℤ} {r : ReadResult} {id : ℤ} :
    (Call.readFile path offset length).read (base64Codec parse)
        (some (response id (.ok (some (readJson r))))) =
      (r.data.take (length % 2 ^ 64).toNat, r.eof) := by
  simp only [Call.read, readJson, getObjectMember_response, getStringMember_data]
  have hdata : ((if r.data = [] then none
      else some (String.ofList (Base64Texts.encode r.data))).map
        (base64Codec parse).decode).getD [] = r.data := by
    split_ifs with hnil
    · exact hnil.symm
    · exact base64Codec_roundtrip parse r.data
  rw [hdata, Nat.min_comm, ← List.take_eq_take_min]
  simp [getBooleanMember]

/-- With its result found in the response, a call agrees when it is read as it was and no NULL is
decoded. -/
theorem agrees_iff_same {c : Call} {r : c.Result} {id : ℤ} {codec : Codec} :
    Agrees codec c r id ↔ c.Same r (c.read codec (some (response id (.ok (some (c.json r)))))) ∧
      none ∉ c.decoded (some (response id (.ok (some (c.json r))))) := by
  constructor
  · rintro ⟨⟨read, hread, hsame⟩, hdecoded⟩
    rw [readResponse_ok, Option.map_some] at hread
    exact ⟨Option.some.inj hread ▸ hsame, hdecoded⟩
  · rintro ⟨hsame, hdecoded⟩
    exact ⟨⟨_, by rw [readResponse_ok, Option.map_some], hsame⟩, hdecoded⟩

theorem agrees_readFile_iff {path : String} {offset length : ℤ} {r : ReadResult} {id : ℤ} :
    Agrees (base64Codec parse) (.readFile path offset length) r id ↔
      r.data ≠ [] ∧ (r.data.length : ℤ) ≤ length % 2 ^ 64 := by
  have htext : none ∉ (Call.readFile path offset length).decoded
      (some (response id (.ok (some (readJson r))))) ↔ r.data ≠ [] := by
    simp only [Call.decoded, readJson, getObjectMember_response, getStringMember_data]
    by_cases hnil : r.data = [] <;> simp [hnil]
  have hfits : r.data.take (length % 2 ^ 64).toNat = r.data ↔
      (r.data.length : ℤ) ≤ length % 2 ^ 64 := by
    rw [List.take_eq_self_iff]
    omega
  rw [agrees_iff_same, Call.json, htext, Call.Same, read_readFile, Prod.mk.injEq, hfits]
  exact ⟨fun h => ⟨h.2, h.1.1⟩, fun h => ⟨⟨h.2, rfl⟩, h.1⟩⟩

/-- What the helper writes is what the client reads, and no NULL text is decoded, exactly for
the results that arrive. -/
theorem wire_agrees_iff (parse : String → Except GError JsonObject) (c : Call) (r : c.Result)
    (id : ℤ) : Agrees (base64Codec parse) c r id ↔ c.Arrives r := by
  have plain : ∀ {c : Call} {r : c.Result} (read : c.Reading),
      c.read (base64Codec parse) (some (response id (.ok (some (c.json r))))) = read →
      none ∉ c.decoded (some (response id (.ok (some (c.json r))))) →
      (c.Same r read ↔ c.Arrives r) →
      (Agrees (base64Codec parse) c r id ↔ c.Arrives r) := by
    rintro c r _ rfl hdecoded h
    rw [agrees_iff_same, h]
    exact and_iff_left hdecoded
  cases c with
  | listDir path =>
    refine plain (r.map fun e => readEntry e.json.getObject) ?_ List.not_mem_nil ?_
    · simp only [Call.read, Call.json, getObjectMember_response]
      simp [getArrayMember, Function.comp_def]
    · exact (forall₂_map_iff r).trans (forall₂_congr fun e _ => sameEntry_iff e)
  | stat path =>
    refine plain (readEntry r.json.getObject) ?_ List.not_mem_nil (sameEntry_iff r)
    exact congrArg readEntry (getObjectMember_response id _)
  | readFile path offset length => exact agrees_readFile_iff
  | getEvents =>
    refine plain (r.map fun e => readEvent e.json.getObject) ?_ List.not_mem_nil ?_
    · simp only [Call.read, Call.json, Option.map_some, Option.getD_some, readEvents,
        getObjectMember_response]
      simp [getArrayMember, Function.comp_def]
    · exact (forall₂_map_iff r).trans (forall₂_congr fun e _ => sameEvent_iff e)
  | fetchThumbnail linkID revisionID =>
    refine plain ((some (carried r)).filter (· ≠ "")) ?_ List.not_mem_nil
      (sameOptional_filter_iff r)
    simp [Call.read, Call.json, getObjectMember_response, getStringMember, stringNode]
  | resumeSession uid refreshToken saltedPassphrase =>
    refine plain ((some (carried r.uid), some (carried r.refreshToken))) ?_
      List.not_mem_nil (and_congr sameText_carried_iff sameText_carried_iff)
    simp only [Call.read, Call.json, AuthResult.json, getObjectMember_response]
    simp [getStringMember, stringNode]

/-- An empty file is read: the helper writes null data, and the client decodes NULL. -/
theorem wire_agrees_fails :
    (FileReads.readFile Crypto.plain (World.steady (fileServer [])) "/f".toList 0 10
      (newSession "root" none)).result = .ok ⟨[], true⟩ ∧
    ¬ Agrees (base64Codec fun _ => .ok []) (.readFile "/f" 0 10) ⟨[], true⟩ 1 :=
  ⟨rfl, fun h => h.decoded (List.mem_singleton.mpr rfl)⟩

end Agreement

section Texts

/-- The entry of the helper, whose strings are all UTF-8. -/
def rpcEntry (e : Entry) : RpcEntry :=
  ⟨utf8 e.name, e.isDir, e.size, e.mtime, goString e.linkID, goString e.revisionID,
    e.hasThumbnail⟩

/-- The entry as it is parsed when no string in it has a NUL. -/
def entryJson (e : Entry) : JsonNode :=
  .object ([("name", .string (String.ofList e.name)), ("is_dir", .boolean e.isDir),
      ("size", .int e.size), ("mtime", .int e.mtime), ("link_id", .string e.linkID)] ++
    (if e.revisionID = "" then [] else [("revision_id", .string e.revisionID)]) ++
    if e.hasThumbnail then [("has_thumbnail", .boolean true)] else [])

def rpcEvent (e : DriveEvent) : RpcEvent := ⟨e.type, goString e.linkID, utf8 e.path⟩

theorem utf8_eq_nil_iff {cs : List Char} : utf8 cs = [] ↔ cs = [] := by
  cases cs with
  | nil => simp
  | cons c cs => simp

theorem stringNode_utf8 {cs : List Char} (h : '\x00' ∉ cs) :
    stringNode (utf8 cs) = .string (String.ofList cs) := by
  rw [stringNode, carried_utf8 h]

theorem stringNode_goString {s : String} (h : '\x00' ∉ s.toList) :
    stringNode (goString s) = .string s := by
  rw [goString, stringNode_utf8 h, String.ofList_toList]

theorem goString_eq_nil_iff {s : String} : goString s = [] ↔ s = "" := by
  rw [goString, utf8_eq_nil_iff, String.toList_eq_nil_iff]

theorem json_rpcEntry {e : Entry} (hname : '\x00' ∉ e.name) (hlink : '\x00' ∉ e.linkID.toList)
    (hrev : '\x00' ∉ e.revisionID.toList) : (rpcEntry e).json = entryJson e := by
  by_cases hr : e.revisionID = "" <;> cases ht : e.hasThumbnail <;>
    simp [RpcEntry.json, rpcEntry, entryJson, stringNode_utf8 hname, stringNode_goString hlink,
      stringNode_goString hrev, goString_eq_nil_iff, hr, ht]

theorem json_rpcEvent {e : DriveEvent} (hlink : '\x00' ∉ e.linkID.toList)
    (hpath : '\x00' ∉ e.path) : (rpcEvent e).json = eventJson e := by
  by_cases hp : e.path = [] <;> cases ht : e.type <;>
    simp [RpcEvent.json, rpcEvent, eventJson, typeText, stringNode_utf8 hpath,
      stringNode_goString hlink, utf8_eq_nil_iff, hp, ht]

theorem readJson_eq (r : ReadResult) :
    readJson r = readResultJson (base64Codec fun _ => .ok []) r := by
  by_cases hnil : r.data = []
  · simp [readJson, readResultJson, bytesNode, hnil]
  · simp [readJson, readResultJson, bytesNode, stringNode, carried_encode, base64Codec, hnil]

end Texts

section Reads

variable {KR : Type} {C : Crypto KR} {w : World} {s : Session KR}

theorem length_sliceRange_le {length : ℤ} (hl : 0 < length) (buf : Bytes) (b offset : ℤ) :
    ((sliceRange buf b offset length).length : ℤ) ≤ length := by
  simp only [sliceRange]
  generalize (if offset - b * protonBlockSize < 0 then 0 else offset - b * protonBlockSize) = trim
  split_ifs with hshort hcut
  · exact hl.le
  · rw [List.length_take]
    omega
  · exact not_lt.mp fun hlong => hcut ⟨hl, hlong⟩

/-- A read of a positive length returns no more than that. -/
theorem readFileContent_length {length : ℤ} (hl : 0 < length) (link : Link) (parentKR : KR)
    (offset : ℤ) : (FileReads.readFileContent C w link parentKR offset length s).Sat
      (fun data _ => (data.length : ℤ) ≤ length) (fun _ _ => True) := by
  have slice : ∀ (o : Step KR Bytes) (b : ℤ), (o.andThen fun buf s =>
      ⟨.ok (sliceRange buf b offset length), s⟩).Sat
        (fun data _ => (data.length : ℤ) ≤ length) (fun _ _ => True) := by
    rintro ⟨e | buf, s'⟩ b
    · exact trivial
    · exact length_sliceRange_le hl buf b offset
  rcases readFileContent_cases C w link parentKR offset length s with ⟨e, -, h⟩ |
    ⟨props, nodeKR, sessionKey, -, -, -, ⟨rev, -, -, h⟩ | ⟨-, h⟩ | ⟨a, -, h⟩⟩
  · rw [h]
    exact trivial
  · rw [h]
    exact slice _ _
  · rw [h, FileReads.readFromCache]
    split
    · exact trivial
    · exact slice _ _
  · rw [h]
    exact trivial

/-- What a read of a positive length returns arrives unless it is empty. -/
theorem readFile_arrives_iff {path : String} {offset length : ℤ} (hl : 0 < length)
    (hmax : length < 2 ^ 63) {r : ReadResult}
    (h : (FileReads.readFile C w path.toList offset length s).result = .ok r) :
    (Call.readFile path offset length).Arrives r ↔ r.data ≠ [] := by
  have hlen : (r.data.length : ℤ) ≤ length := by
    rcases readFile_cases C w path.toList offset length s with ⟨e, s₁, -, hrun⟩ |
      ⟨link, parentKR, s₁, -, ⟨-, hrun⟩ | ⟨-, ⟨data, s₂, hc, hrun⟩ | ⟨e, e', s₂, -, hrun, -⟩⟩⟩
    · rw [hrun] at h
      cases h
    · rw [hrun] at h
      cases h
    · have hdata := readFileContent_length (C := C) (w := w) (s := s₁) hl link parentKR offset
      rw [hc] at hdata
      rw [hrun] at h
      cases h
      exact hdata
    · rw [hrun] at h
      cases h
  have hmod : length % 2 ^ 64 = length := by omega
  simp only [Call.Arrives, hmod, hlen, and_true]

end Reads

end ProtonDrive.WireFormats
